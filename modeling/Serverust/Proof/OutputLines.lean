import Serverust.Model.OutputCapture

/-!
# What is captured of a job's output

The lines are read without their ends and written with line feeds, so a captured text is the lines of
the stream, and the stream itself exactly when each of its lines ends with a line feed alone.
-/

namespace Serverust

namespace OutputLines

def textLines (text : List Char) : List (List Char) := Lines.cut (fun c => c = '\n') text

/-- The lines with line feeds for their ends. -/
def rejoin (lines : List (List Char)) : List Char := lines.flatMap fun line => stripEnd line ++ ['\n']

/-- The line ends with a line feed, and not with a carriage return before it. -/
def Plain (line : List Char) : Prop := ∃ body, line = body ++ ['\n'] ∧ body.getLast? ≠ some '\r'

/-! ### One line -/

theorem stripEnd_of_plain {body : List Char} (h : body.getLast? ≠ some '\r') :
    stripEnd (body ++ ['\n']) = body := by
  unfold stripEnd
  rw [List.reverse_append, List.reverse_singleton, List.singleton_append]
  cases hrev : body.reverse with
  | nil =>
      cases List.reverse_eq_nil_iff.mp hrev
      rfl
  | cons c rest =>
      have hlast : body.getLast? = some c := by rw [← List.head?_reverse, hrev, List.head?_cons]
      have hc : c ≠ '\r' := fun heq => h (heq ▸ hlast)
      rw [← List.reverse_reverse body, hrev]
      simp [hc]

theorem stripEnd_crlf (body : List Char) : stripEnd (body ++ ['\r', '\n']) = body := by
  unfold stripEnd
  simp

theorem stripEnd_of_getLast_ne {line : List Char} (h : line.getLast? ≠ some '\n') : stripEnd line = line := by
  unfold stripEnd
  cases hrev : line.reverse with
  | nil => rfl
  | cons c rest =>
      have hlast : line.getLast? = some c := by rw [← List.head?_reverse, hrev, List.head?_cons]
      have hc : c ≠ '\n' := fun heq => h (heq ▸ hlast)
      simp [hc]

/-! ### A valid stream -/

theorem rawLines_encode (text : List Char) : rawLines (Utf8.encode text) = (textLines text).map Utf8.encode := by
  refine Lines.cut_flatMap ?_ ?_ text
  · intro c hc
    cases of_decide_eq_true hc
    exact ⟨10, rfl, rfl⟩
  · intro c hc
    have hc' : c ≠ '\n' := of_decide_eq_false hc
    refine ⟨String.utf8EncodeChar_ne_nil, fun byte hbyte => decide_eq_false fun heq => ?_⟩
    exact hc' (Utf8.newline_mem.mp (heq ▸ hbyte))

theorem rejoin_cons (line : List Char) (lines : List (List Char)) :
    rejoin (line :: lines) = stripEnd line ++ '\n' :: rejoin lines := by
  rw [rejoin, List.flatMap_cons, List.append_assoc]
  rfl

theorem readLines_encode (lines : List (List Char)) (rest : List (List UInt8)) :
    readLines (lines.map Utf8.encode ++ rest) = rejoin lines ++ readLines rest := by
  induction lines with
  | nil => rfl
  | cons line lines ih =>
      rw [List.map_cons, List.cons_append, readLines, Utf8.decode_encode, ih, rejoin_cons, List.append_assoc,
        List.cons_append]

/-! ### When nothing changes -/

theorem not_plain_of_getLast_ne {line : List Char} (h : line.getLast? ≠ some '\n') : ¬Plain line := by
  rintro ⟨body, rfl, _⟩
  exact h List.getLast?_concat

theorem plain_concat {body : List Char} : Plain (body ++ ['\n']) ↔ body.getLast? ≠ some '\r' := by
  constructor
  · rintro ⟨body', hbody, hlast⟩
    rwa [List.append_cancel_right hbody]
  · exact fun hlast => ⟨body, rfl, hlast⟩

/-- Behind a line with an end, the rest agrees if the line does. -/
theorem rejoin_concat (body : List Char) (lines : List (List Char)) (ys : List Char) :
    rejoin ((body ++ ['\n']) :: lines) = body ++ ['\n'] ++ ys ↔ Plain (body ++ ['\n']) ∧ rejoin lines = ys := by
  rw [rejoin_cons, plain_concat]
  by_cases hcr : body.getLast? = some '\r'
  · -- A line feed is written where the stream has the carriage return.
    obtain ⟨rest, rfl⟩ := List.getLast?_eq_some_iff.mp hcr
    rw [List.append_assoc, List.singleton_append, stripEnd_crlf, List.append_assoc,
      List.append_cancel_left_eq]
    simp
  · rw [stripEnd_of_plain hcr, List.append_assoc, List.append_cancel_left_eq, List.singleton_append,
      List.cons_inj_right, and_iff_right hcr]

theorem rejoin_eq_flatten {lines : List (List Char)} (hshaped : Lines.Shaped (fun c => c = '\n') lines) :
    rejoin lines = lines.flatten ↔ ∀ line ∈ lines, Plain line := by
  induction hshaped with
  | nil => simp [rejoin]
  | last line =>
      rw [List.flatten_singleton, List.forall_mem_singleton]
      by_cases hend : line.getLast? = some '\n'
      · obtain ⟨body, rfl⟩ := List.getLast?_eq_some_iff.mp hend
        have hrejoin := rejoin_concat body [] []
        rw [List.append_nil] at hrejoin
        exact hrejoin.trans (and_iff_left rfl)
      · -- A line feed is added to a last line without one.
        rw [rejoin_cons, stripEnd_of_getLast_ne hend]
        refine iff_of_false (fun heq => ?_) (not_plain_of_getLast_ne hend)
        rw [List.append_right_eq_self] at heq
        cases heq
  | @cons e lines body he hlines ih =>
      cases of_decide_eq_true he
      rw [List.flatten_cons, rejoin_concat, ih, List.forall_mem_cons]

/-! ### The captured text -/

theorem capture_encode (text : List Char) :
    PythonRunner.capture (Utf8.encode text) = String.ofList (rejoin (textLines text)) := by
  have hlines := readLines_encode (textLines text) []
  rw [List.append_nil] at hlines
  rw [PythonRunner.capture, rawLines_encode, hlines, readLines, List.append_nil]

/-- Of a stream that is UTF-8, the lines are captured, each with a line feed. That is the stream if each of
its lines ends so. Of any stream, the lines up to one that is not UTF-8 are captured. -/
theorem stdout_captured {child : Child} {result : ExecutionResult}
    (hresult : PythonRunner.spawnWithLimits (.ok child) = .ok result) :
    (∀ text, Utf8.encode text = child.stdout →
      result.stdout = String.ofList (rejoin (textLines text)) ∧
      (Utf8.encode result.stdout.toList = child.stdout ↔ ∀ line ∈ textLines text, Plain line)) ∧
    ∀ lines : List (List Char), lines.map Utf8.encode <+: rawLines child.stdout →
      rejoin lines <+: result.stdout.toList := by
  have hstdout : result.stdout = PythonRunner.capture child.stdout := by
    cases hresult
    rfl
  rw [hstdout]
  constructor
  · intro text htext
    rw [← htext, capture_encode]
    refine ⟨rfl, ?_⟩
    have hplain := rejoin_eq_flatten (Lines.shaped_cut (fun c => c = '\n') text)
    rw [Lines.flatten_cut] at hplain
    rw [String.toList_ofList]
    exact ⟨fun h => hplain.mp (Utf8.encode_injective h), fun h => congrArg Utf8.encode (hplain.mpr h)⟩
  · rintro lines ⟨rest, hrest⟩
    rw [PythonRunner.capture, ← hrest, readLines_encode, String.toList_ofList]
    exact List.prefix_append _ _

/-- A process that writes this text and succeeds. -/
def writes (text : List Char) : Child where
  stdout := Utf8.encode text
  stderr := []
  wait := .exited (some 0)

theorem stdout_captured_sample : ∃ result, PythonRunner.spawnWithLimits (.ok (writes ['a', '\n', 'b'])) = .ok result ∧
    result.stdout = String.ofList ['a', '\n', 'b', '\n'] :=
  ⟨_, rfl, ((stdout_captured rfl).1 ['a', '\n', 'b'] rfl).1⟩

/-- A last line gets the line feed that it lacks. -/
theorem stdout_changed : ¬∀ (child : Child) (result : ExecutionResult),
    PythonRunner.spawnWithLimits (.ok child) = .ok result →
      ∀ text, Utf8.encode text = child.stdout → result.stdout = String.ofList text := by
  intro hclaim
  have hsame := hclaim (writes ['a']) _ rfl ['a'] rfl
  have hcapture := capture_encode ['a']
  have htext := String.ofList_injective (hcapture.symm.trans hsame)
  exact absurd htext (by decide)

end OutputLines

end Serverust
