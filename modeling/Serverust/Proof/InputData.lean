import Serverust.Model.ExecutionService
import Serverust.Model.PythonRunner

/-!
# Input data in the program text

The JSON text of the input stands in a Python literal. Python undoes the escapes of JSON, so that the
literal's value is the text with its strings bare; and no text can close the literal.
-/

namespace Serverust

open PythonLiteral

variable {names : List Char → Option Nat}

/-- The code points of a text. -/
def codePoints (s : List Char) : List Nat := s.map Char.toNat

/-! ### JSON text as Python reads it -/

theorem escape_control (n : Nat) (hn : n < 32) :
    Escape names ['u', '0', '0', Nat.digitChar (n / 16), Nat.digitChar (n % 16)] n := by
  interval_cases n <;> exact .of_all (fun _ => rfl) rfl rfl

theorem reads_escape (c : Char) : Reads names (JsonText.escape c) [c.toNat] := by
  unfold JsonText.escape
  split_ifs with hquote hslash hb ht hn hf hr hcontrol
  · subst hquote
    exact Reads.ofEscape (.of_all (fun _ => rfl) rfl rfl)
  · subst hslash
    exact Reads.ofEscape (.of_all (fun _ => rfl) rfl rfl)
  · exact hb ▸ Reads.ofEscape (.of_all (fun _ => rfl) rfl rfl)
  · exact ht ▸ Reads.ofEscape (.of_all (fun _ => rfl) rfl rfl)
  · exact hn ▸ Reads.ofEscape (.of_all (fun _ => rfl) rfl rfl)
  · exact hf ▸ Reads.ofEscape (.of_all (fun _ => rfl) rfl rfl)
  · exact hr ▸ Reads.ofEscape (.of_all (fun _ => rfl) rfl rfl)
  · exact Reads.ofEscape (escape_control c.toNat hcontrol)
  · exact .plain hslash .nil

theorem reads_quoted (s : String) : Reads names (JsonText.quoted JsonText.escape s)
    (codePoints (JsonText.quoted (fun c => [c]) s)) := by
  have hchars (cs : List Char) : Reads names (cs.flatMap JsonText.escape) (codePoints cs) := by
    induction cs with
    | nil => exact .nil
    | cons c cs ih => exact (reads_escape c).append ih
  unfold JsonText.quoted codePoints
  rw [List.flatMap_singleton', List.map_cons, List.map_append]
  exact .plain (by decide) ((hchars s.toList).append (.plain (by decide) .nil))

theorem reads_number (n : JsonText.Number) : Reads names n.text (codePoints n.text) := by
  apply Reads.of_plain
  intro c hc hslash
  have hdigit := n.digits c hc
  rw [hslash] at hdigit
  revert hdigit
  decide

theorem reads_comma (first : Bool) : Reads names (JsonText.comma first) (codePoints (JsonText.comma first)) := by
  apply Reads.of_all
  cases first <;> rfl

mutual

theorem reads_text : ∀ v : JsonText.Value,
    Reads names (JsonText.text v) (codePoints (JsonText.bare v))
  | .null => Reads.of_all (s := ['n', 'u', 'l', 'l']) rfl
  | .bool true => Reads.of_all (s := ['t', 'r', 'u', 'e']) rfl
  | .bool false => Reads.of_all (s := ['f', 'a', 'l', 's', 'e']) rfl
  | .number n => reads_number n
  | .string s => reads_quoted s
  | .array items => by
      simp only [JsonText.text, JsonText.bare, JsonText.write, codePoints, List.map_cons, List.map_append]
      exact .plain (by decide) ((reads_items true items).append (.plain (by decide) .nil))
  | .object entries => by
      simp only [JsonText.text, JsonText.bare, JsonText.write, codePoints, List.map_cons, List.map_append]
      exact .plain (by decide) ((reads_entries true entries).append (.plain (by decide) .nil))

theorem reads_items (first : Bool) : ∀ items : List JsonText.Value,
    Reads names (JsonText.writeItems JsonText.escape first items)
      (codePoints (JsonText.writeItems (fun c => [c]) first items))
  | [] => .nil
  | item :: rest => by
      simp only [JsonText.writeItems, codePoints, List.map_append]
      exact (reads_comma first).append ((reads_text item).append (reads_items false rest))

theorem reads_entries (first : Bool) : ∀ entries : List (String × JsonText.Value),
    Reads names (JsonText.writeEntries JsonText.escape first entries)
      (codePoints (JsonText.writeEntries (fun c => [c]) first entries))
  | [] => .nil
  | (key, value) :: rest => by
      simp only [JsonText.writeEntries, codePoints, List.map_append, List.map_cons]
      exact (reads_comma first).append ((reads_quoted key).append
        (.plain (by decide) ((reads_text value).append (reads_entries false rest))))

end

/-! ### The program -/

/-- What Python reads behind the quotes that the template opens: the literal, and the code after it. -/
def inputLiteral (program : String) : Option (List Char × List Char) :=
  scan (program.toList.drop PythonRunner.templateHead.length)

/-- The code points of the text that the program hands to `json.loads`. -/
def loadedText (names : List Char → Option Nat) (program : String) : Option (List Nat) :=
  (inputLiteral program).bind fun r => decode names r.1

theorem inputLiteral_fullCode (code input : String) :
    inputLiteral (PythonRunner.fullCode code (some input)) =
      scan (replaceQuotes input.toList ++ '\'' :: '\'' :: '\'' :: (PythonRunner.templateTail code).toList) := by
  have hquotes : "'''".toList = ['\'', '\'', '\''] := by decide
  simp only [inputLiteral, PythonRunner.fullCode, PythonRunner.encodeInput, String.toList_append,
    String.toList_ofList, hquotes, List.append_assoc, ← String.length_toList, List.drop_left,
    List.cons_append, List.nil_append]

theorem toList_encodeInput (v : JsonText.Value) :
    (PythonRunner.encodeInput (jsonText v)).toList = replaceQuotes (JsonText.text v) := by
  simp only [PythonRunner.encodeInput, jsonText, String.toList_ofList]

/-- No character of the input is read as code: the literal that the template opens ends exactly at the
template's own closing quotes. -/
theorem input_literal_closed (code : String) (v : JsonText.Value) :
    inputLiteral (PythonRunner.fullCode code (some (jsonText v))) =
      some ((PythonRunner.encodeInput (jsonText v)).toList, (PythonRunner.templateTail code).toList) := by
  have hreads : Reads (fun _ => none) (JsonText.text v) _ := reads_text v
  have hlast : (JsonText.text v).getLast? ≠ some '\'' := JsonText.getLast?_write_ne v
  rw [inputLiteral_fullCode, toList_encodeInput, jsonText, String.toList_ofList]
  exact hreads.scan_replaceQuotes (k := 0) (by omega) hlast _

/-- The program loads the text of the input with its strings bare. -/
theorem loadedText_fullCode (code : String) (v : JsonText.Value) :
    loadedText names (PythonRunner.fullCode code (some (jsonText v))) =
      some (codePoints (JsonText.bare v)) := by
  have hlast : (JsonText.text v).getLast? ≠ some '\'' := JsonText.getLast?_write_ne v
  have hreads : Reads names (JsonText.text v) _ := reads_text v
  have hscan := hreads.scan_replaceQuotes (k := 0) (by omega) hlast
  rw [loadedText, inputLiteral_fullCode, jsonText, String.toList_ofList]
  simp only [List.replicate_zero, List.nil_append] at hscan
  rw [hscan, Option.bind_some]
  exact (reads_text v).decode_replaceQuotes (k := 0) (by omega)

/-- The program binds `INPUT_DATA` to the input exactly if no string of it, key or value, has a character
that JSON escapes. -/
theorem input_data_bound_iff (names : List Char → Option Nat) (code : String) (v : JsonText.Value) :
    loadedText names (PythonRunner.fullCode code (some (jsonText v))) =
      some (codePoints (jsonText v).toList) ↔ ∀ c ∈ JsonText.chars v, ¬JsonText.NeedsEscape c := by
  rw [loadedText_fullCode, jsonText, String.toList_ofList, ← JsonText.text_eq_bare_iff, Option.some_inj]
  constructor
  · intro h
    have hinjective : Function.Injective Char.toNat := fun c d => Char.toNat_inj.mp
    exact (List.map_injective_iff.mpr hinjective h).symm
  · intro h
    rw [h]

/-- The newline of this input is a newline of the loaded text, where JSON allows none. -/
theorem newline_not_bound :
    loadedText (fun _ => none) (PythonRunner.fullCode "print(INPUT_DATA)" (some (jsonText (.string "\n")))) ≠
      some (codePoints (jsonText (.string "\n")).toList) := by
  rw [loadedText_fullCode, jsonText, String.toList_ofList]
  decide

end Serverust
