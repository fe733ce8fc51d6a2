import Mathlib.Data.List.Basic

/-!
# JSON values and their text

The compact text of a value, written with a given way to write the characters of a string. JSON escapes
some characters; without the escapes the text is shorter, which `length_write` counts.
-/

namespace JsonText

/-- A number is known by its text. -/
structure Number where
  text : List Char
  digits : ∀ c ∈ text, c.isDigit ∨ c ∈ ['-', '+', '.', 'e']

/-- A value. The entries of an object are in the order in which they are written. -/
inductive Value where
  | null
  | bool (value : Bool)
  | number (value : Number)
  | string (value : String)
  | array (items : List Value)
  | object (entries : List (String × Value))

/-- A character of a string, escaped. -/
def escape (c : Char) : List Char :=
  if c = '\"' then ['\\', '\"']
  else if c = '\\' then ['\\', '\\']
  else if c.toNat = 8 then ['\\', 'b']
  else if c.toNat = 9 then ['\\', 't']
  else if c.toNat = 10 then ['\\', 'n']
  else if c.toNat = 12 then ['\\', 'f']
  else if c.toNat = 13 then ['\\', 'r']
  else if c.toNat < 32 then
    ['\\', 'u', '0', '0', Nat.digitChar (c.toNat / 16), Nat.digitChar (c.toNat % 16)]
  else [c]

/-- The characters that are escaped. -/
def NeedsEscape (c : Char) : Prop := c = '\"' ∨ c = '\\' ∨ c.toNat < 32

instance : DecidablePred NeedsEscape := fun _ => inferInstanceAs (Decidable (_ ∨ _))

def quoted (char : Char → List Char) (s : String) : List Char :=
  '\"' :: (s.toList.flatMap char ++ ['\"'])

/-- The comma in front of every item but the first. -/
def comma (first : Bool) : List Char := if first then [] else [',']

mutual

/-- The compact text of a value. -/
def write (char : Char → List Char) : Value → List Char
  | .null => ['n', 'u', 'l', 'l']
  | .bool true => ['t', 'r', 'u', 'e']
  | .bool false => ['f', 'a', 'l', 's', 'e']
  | .number n => n.text
  | .string s => quoted char s
  | .array items => '[' :: (writeItems char true items ++ [']'])
  | .object entries => '\x7b' :: (writeEntries char true entries ++ ['\x7d'])

def writeItems (char : Char → List Char) (first : Bool) : List Value → List Char
  | [] => []
  | item :: rest => comma first ++ (write char item ++ writeItems char false rest)

def writeEntries (char : Char → List Char) (first : Bool) : List (String × Value) → List Char
  | [] => []
  | (key, value) :: rest =>
    comma first ++ (quoted char key ++ ':' :: (write char value ++ writeEntries char false rest))

end

mutual

/-- The characters of all strings of a value, of keys and of values. -/
def chars : Value → List Char
  | .string s => s.toList
  | .array items => charsOfItems items
  | .object entries => charsOfEntries entries
  | .null | .bool _ | .number _ => []

def charsOfItems : List Value → List Char
  | [] => []
  | item :: rest => chars item ++ charsOfItems rest

def charsOfEntries : List (String × Value) → List Char
  | [] => []
  | (key, value) :: rest => key.toList ++ (chars value ++ charsOfEntries rest)

end

/-- The text of a value. -/
def text (v : Value) : List Char := write escape v

/-- The text of a value with its strings as they are. -/
def bare (v : Value) : List Char := write (fun c => [c]) v

variable {char char' : Char → List Char}

/-! ### The end of a text -/

theorem getLast?_closed {opening closing : Char} {middle : List Char} (h : closing ≠ '\'') :
    (opening :: (middle ++ [closing])).getLast? ≠ some '\'' := by
  rw [← List.cons_append, List.getLast?_concat]
  exact fun heq => h (Option.some.inj heq)

theorem getLast?_write_ne (v : Value) : (write char v).getLast? ≠ some '\'' := by
  cases v with
  | null =>
      show ['n', 'u', 'l', 'l'].getLast? ≠ _
      decide
  | bool value =>
      cases value with
      | true =>
          show ['t', 'r', 'u', 'e'].getLast? ≠ _
          decide
      | false =>
          show ['f', 'a', 'l', 's', 'e'].getLast? ≠ _
          decide
  | number value =>
      intro h
      have hquote := value.digits '\'' (List.mem_of_getLast? h)
      revert hquote
      decide
  | string value => exact getLast?_closed (by decide)
  | array items => exact getLast?_closed (by decide)
  | object entries => exact getLast?_closed (by decide)

/-! ### Texts with and without escapes -/

theorem flatMap_congr_left {cs : List Char} (h : ∀ c ∈ cs, char c = char' c) :
    cs.flatMap char = cs.flatMap char' := by
  induction cs with
  | nil => rfl
  | cons c cs ih =>
      rw [List.flatMap_cons, List.flatMap_cons, h c List.mem_cons_self,
        ih fun d hd => h d (List.mem_cons_of_mem c hd)]

mutual

/-- A text depends only on how the characters of its strings are written. -/
theorem write_congr : ∀ v : Value, (∀ c ∈ chars v, char c = char' c) → write char v = write char' v
  | .null, _ => rfl
  | .bool true, _ => rfl
  | .bool false, _ => rfl
  | .number _, _ => rfl
  | .string s, h => by
      have hs : s.toList.flatMap char = s.toList.flatMap char' := flatMap_congr_left h
      simp only [write, quoted, hs]
  | .array items, h => by simp only [write, writeItems_congr true items h]
  | .object entries, h => by simp only [write, writeEntries_congr true entries h]

theorem writeItems_congr (first : Bool) : ∀ items : List Value,
    (∀ c ∈ charsOfItems items, char c = char' c) → writeItems char first items = writeItems char' first items
  | [], _ => rfl
  | item :: rest, h => by
      obtain ⟨hitem, hrest⟩ := List.forall_mem_append.mp (h : ∀ c ∈ chars item ++ charsOfItems rest, _)
      simp only [writeItems, write_congr item hitem, writeItems_congr false rest hrest]

theorem writeEntries_congr (first : Bool) : ∀ entries : List (String × Value),
    (∀ c ∈ charsOfEntries entries, char c = char' c) →
      writeEntries char first entries = writeEntries char' first entries
  | [], _ => rfl
  | (key, value) :: rest, h => by
      obtain ⟨hkey, hmore⟩ :=
        List.forall_mem_append.mp (h : ∀ c ∈ key.toList ++ (chars value ++ charsOfEntries rest), _)
      obtain ⟨hvalue, hrest⟩ := List.forall_mem_append.mp hmore
      simp only [writeEntries, quoted, flatMap_congr_left hkey, write_congr value hvalue,
        writeEntries_congr false rest hrest]

end

mutual

/-- The characters of the strings are all that makes a text longer than the bare text. -/
theorem length_write : ∀ v : Value,
    (write char v).length + (chars v).length = (bare v).length + ((chars v).flatMap char).length
  | .null => rfl
  | .bool true => rfl
  | .bool false => rfl
  | .number n => rfl
  | .string s => by
      simp [bare, write, quoted, chars]
      omega
  | .array items => by
      have hitems := length_writeItems true items
      simp only [bare, write, chars, List.length_cons, List.length_append] at hitems ⊢
      omega
  | .object entries => by
      have hentries := length_writeEntries true entries
      simp only [bare, write, chars, List.length_cons, List.length_append] at hentries ⊢
      omega

theorem length_writeItems (first : Bool) : ∀ items : List Value,
    (writeItems char first items).length + (charsOfItems items).length =
      (writeItems (fun c => [c]) first items).length + ((charsOfItems items).flatMap char).length
  | [] => rfl
  | item :: rest => by
      have hitem := length_write item
      have hrest := length_writeItems false rest
      simp only [bare, writeItems, charsOfItems, List.length_append, List.flatMap_append] at hitem hrest ⊢
      omega

theorem length_writeEntries (first : Bool) : ∀ entries : List (String × Value),
    (writeEntries char first entries).length + (charsOfEntries entries).length =
      (writeEntries (fun c => [c]) first entries).length + ((charsOfEntries entries).flatMap char).length
  | [] => rfl
  | (key, value) :: rest => by
      have hvalue := length_write value
      have hrest := length_writeEntries false rest
      simp [bare, writeEntries, quoted, charsOfEntries] at hvalue hrest ⊢
      omega

end

theorem escape_of_not {c : Char} (h : ¬NeedsEscape c) : escape c = [c] := by
  simp only [NeedsEscape, not_or, Nat.not_lt] at h
  obtain ⟨hquote, hslash, hcontrol⟩ := h
  simp only [escape, hquote, hslash, if_false]
  split_ifs <;> first | omega | rfl

theorem one_lt_length_escape {c : Char} (h : NeedsEscape c) : 1 < (escape c).length := by
  unfold escape
  split_ifs with h1 h2 h3 h4 h5 h6 h7 h8 <;> simp
  simp [NeedsEscape, h1, h2, h8] at h

theorem length_escape_pos (c : Char) : 1 ≤ (escape c).length := by
  by_cases h : NeedsEscape c
  · exact Nat.le_of_lt (one_lt_length_escape h)
  · rw [escape_of_not h]
    exact Nat.le_refl 1

theorem length_le_flatMap_escape (cs : List Char) : cs.length ≤ (cs.flatMap escape).length := by
  induction cs with
  | nil => exact Nat.le_refl 0
  | cons c cs ih =>
      have hc := length_escape_pos c
      simp only [List.length_cons, List.flatMap_cons, List.length_append]
      omega

theorem length_lt_flatMap_escape {cs : List Char} {c : Char} (hc : c ∈ cs) (h : NeedsEscape c) :
    cs.length < (cs.flatMap escape).length := by
  obtain ⟨before, after, rfl⟩ := List.append_of_mem hc
  have hbefore := length_le_flatMap_escape before
  have hafter := length_le_flatMap_escape after
  have hescape := one_lt_length_escape h
  simp only [List.flatMap_append, List.flatMap_cons, List.length_append, List.length_cons]
  omega

/-- The text has escapes exactly if some string has a character that is escaped. -/
theorem text_eq_bare_iff (v : Value) : text v = bare v ↔ ∀ c ∈ chars v, ¬NeedsEscape c := by
  constructor
  · intro h c hc hescape
    have hlonger := length_lt_flatMap_escape hc hescape
    have hlength : (text v).length + (chars v).length = (bare v).length + ((chars v).flatMap escape).length :=
      length_write v
    rw [h] at hlength
    omega
  · intro h
    exact write_congr v fun c hc => escape_of_not (h c hc)

end JsonText
