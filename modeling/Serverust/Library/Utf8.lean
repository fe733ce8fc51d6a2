import Mathlib.Data.List.Lex
import Mathlib.Data.String.Basic

/-!
# Texts and their bytes

UTF-8 keeps order: two texts compare as their bytes do. The byte of a line feed encodes nothing else, so
bytes and their text have the same lines.
-/

namespace Utf8

/-- The bytes of a text. -/
def encode (text : List Char) : List UInt8 := text.flatMap String.utf8EncodeChar

@[simp] theorem encode_nil : encode [] = [] := rfl

@[simp] theorem encode_cons (c : Char) (text : List Char) :
    encode (c :: text) = String.utf8EncodeChar c ++ encode text := rfl

theorem ofNat_lt_ofNat {a b : Nat} (ha : a < 256) (hb : b < 256) : UInt8.ofNat a < UInt8.ofNat b ↔ a < b := by
  rw [UInt8.lt_iff_toNat_lt, UInt8.toNat_ofNat_of_lt' ha, UInt8.toNat_ofNat_of_lt' hb]

theorem ofNat_eq_ofNat {a b : Nat} (ha : a < 256) (hb : b < 256) : UInt8.ofNat a = UInt8.ofNat b ↔ a = b := by
  rw [← UInt8.toNat_inj, UInt8.toNat_ofNat_of_lt' ha, UInt8.toNat_ofNat_of_lt' hb]

theorem toNat_lt (c : Char) : c.val.toNat < 1114112 := by
  rcases c.valid with h | ⟨_, h⟩
  · exact h.trans (by decide)
  · exact h

theorem append_lt_append_left (bytes xs ys : List UInt8) : bytes ++ xs < bytes ++ ys ↔ xs < ys := by
  induction bytes with
  | nil => rfl
  | cons b bytes ih =>
      rw [List.cons_append, List.cons_append, List.cons_lt_cons_iff, ih]
      simp

/-- The encodings of two characters first differ at a byte that both have, and there in their order. -/
theorem append_lt_append {c d : Char} (h : c < d) (xs ys : List UInt8) :
    String.utf8EncodeChar c ++ xs < String.utf8EncodeChar d ++ ys := by
  have hc := toNat_lt c
  have hd := toNat_lt d
  have hlt : c.val.toNat < d.val.toNat := h
  unfold String.utf8EncodeChar
  generalize c.val.toNat = v at *
  generalize d.val.toNat = u at *
  -- Six more bits are the next digit to the base 64.
  have hdigits : ∀ n, n / 64 / 64 = n / 4096 ∧ n / 4096 / 64 = n / 262144 := fun n => by omega
  have hv := hdigits v
  have hu := hdigits u
  have hvtop : v / 262144 % 8 = v / 262144 := Nat.mod_eq_of_lt (by omega)
  have hutop : u / 262144 % 8 = u / 262144 := Nat.mod_eq_of_lt (by omega)
  simp only
  split_ifs <;> simp only [List.cons_append, List.nil_append, List.cons_lt_cons_iff] <;>
    simp (disch := omega) only [ofNat_lt_ofNat, ofNat_eq_ofNat] <;> omega

/-- Texts are in the order of their bytes. -/
theorem encode_lt_encode (s t : List Char) : encode s < encode t ↔ s < t := by
  induction s generalizing t with
  | nil =>
      cases t with
      | nil => simp
      | cons d t =>
          cases hd : String.utf8EncodeChar d with
          | nil => exact absurd hd String.utf8EncodeChar_ne_nil
          | cons x xs => simp [hd]
  | cons c s ih =>
      cases t with
      | nil => simp
      | cons d t =>
          rw [encode_cons, encode_cons, List.cons_lt_cons_iff]
          rcases lt_trichotomy c d with hlt | rfl | hgt
          · exact iff_of_true (append_lt_append hlt _ _) (.inl hlt)
          · rw [append_lt_append_left, ih]
            simp
          · refine iff_of_false (fun h => ?_) ?_
            · exact absurd h (List.lt_asymm (append_lt_append hgt _ _))
            · rintro (h | ⟨rfl, _⟩)
              · exact absurd h hgt.asymm
              · exact absurd hgt (lt_irrefl _)

/-! ### Decoding -/

/-- The text that these bytes encode. -/
def decode (bytes : List UInt8) : Option (List Char) := bytes.toByteArray.utf8Decode?.map Array.toList

theorem toByteArray_encode (text : List Char) : (encode text).toByteArray = text.utf8Encode := rfl

@[simp] theorem decode_encode (text : List Char) : decode (encode text) = some text := by
  rw [decode, toByteArray_encode, List.utf8Decode?_utf8Encode]
  rfl

theorem encode_injective {s t : List Char} (h : encode s = encode t) : s = t := by
  have hdecode := congrArg decode h
  rw [decode_encode, decode_encode] at hdecode
  exact Option.some.inj hdecode

theorem newline_mem {c : Char} : (10 : UInt8) ∈ String.utf8EncodeChar c ↔ c = '\n' := by
  constructor
  · intro h
    have hc := toNat_lt c
    have hval : c.val.toNat = 10 := by
      revert h
      unfold String.utf8EncodeChar
      generalize c.val.toNat = v at *
      have hten : (10 : UInt8) = UInt8.ofNat 10 := rfl
      rw [hten]
      dsimp only
      split_ifs <;> simp only [List.mem_cons, List.not_mem_nil, or_false] <;>
        simp (disch := omega) only [ofNat_eq_ofNat] <;> omega
    exact Char.ext (UInt32.toNat_inj.mp hval)
  · rintro rfl
    decide

end Utf8

