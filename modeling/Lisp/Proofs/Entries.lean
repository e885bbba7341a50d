import Lisp.Program.Repl
import Lisp.Proofs.Concatenation
import Lisp.Proofs.Evaluation
import Lisp.Proofs.Layout

/-!
# Entries of the interactive loop

Lines fall into groups: a group is the shortest run of lines that makes a balanced text, and in the
lines that remain no run does. That depends on nothing but the lines. What the loop does with them
is what an interpreter does that is given the texts of the groups one after another, blank ones left
out, and no input at all. White space around a text does not change what is read.
-/

namespace Lisp

/-! ## White space around a text -/

/-- Where only white space follows, what is unfinished ends as it would at the end of the text. -/
theorem scan_blank {blanks : List Char} (h : ∀ c ∈ blanks, Text.isBlank c = true) (mode : ScanMode)
    (p : Position) : scan mode p blanks = mode.finish := by
  induction blanks generalizing mode p with
  | nil => rw [scan]
  | cons c rest ih =>
    obtain ⟨hc, hrest⟩ := List.forall_mem_cons.mp h
    have hbegin := begin_blank (Or.inl hc) p
    have hne : ∀ {d : Char}, Text.isBlank d = false → c ≠ d := by
      rintro d hd rfl
      rw [hc] at hd
      cases hd
    rw [scan_cons, ih hrest]
    cases mode with
    | between => rw [ScanMode.step, hbegin]; rfl
    | tilde start => rw [ScanMode.step, if_neg (hne (by decide)), hbegin]; rfl
    | comment =>
      rw [ScanMode.step]
      split <;> rfl
    | string start body escaped =>
      cases escaped with
      | true => rfl
      | false => rw [ScanMode.step, if_neg (hne (by decide))]; rfl
    | word start text =>
      have hdelimiter : isDelimiter c = true := by rw [isDelimiter, hc, Bool.true_or]
      rw [ScanMode.step, if_pos hdelimiter, hbegin]
      rfl

theorem scan_append_blank {blanks : List Char} (h : ∀ c ∈ blanks, Text.isBlank c = true)
    (mode : ScanMode) (p : Position) (cs : List Char) :
    scan mode p (cs ++ blanks) = scan mode p cs := by
  induction cs generalizing mode p with
  | nil =>
    rw [List.nil_append, scan_blank h, scan]
  | cons c cs ih => rw [List.cons_append, scan_cons, scan_cons, ih]

theorem gap_blank {blanks : List Char} (h : ∀ c ∈ blanks, Text.isBlank c = true) : Gap blanks := by
  induction blanks with
  | nil => exact .nil
  | cons c rest ih =>
    obtain ⟨hc, hrest⟩ := List.forall_mem_cons.mp h
    exact .blank (Or.inl hc) (ih hrest)

/-- A text is white space, the trimmed text and white space. -/
theorem Text.exists_trim (s : String) : ∃ before after : List Char,
    s.toList = before ++ ((trim s).toList ++ after) ∧
      (∀ c ∈ before, isBlank c = true) ∧ ∀ c ∈ after, isBlank c = true := by
  let rest := s.toList.dropWhile isBlank
  refine ⟨s.toList.takeWhile isBlank, (rest.reverse.takeWhile isBlank).reverse, ?_, ?_, ?_⟩
  · have hrest : (rest.reverse.dropWhile isBlank).reverse ++
        (rest.reverse.takeWhile isBlank).reverse = rest := by
      rw [← List.reverse_append, List.takeWhile_append_dropWhile, List.reverse_reverse]
    rw [trim, String.toList_ofList, hrest, List.takeWhile_append_dropWhile]
  · exact fun c hc => List.mem_takeWhile_imp hc
  · exact fun c hc => List.mem_takeWhile_imp (List.mem_reverse.mp hc)

theorem Text.isEmpty_trim (s : String) : (trim s).isEmpty = s.toList.all isBlank := by
  rw [Bool.eq_iff_iff, String.isEmpty_iff, List.all_eq_true]
  constructor
  · intro hempty
    obtain ⟨before, after, htext, hbefore, hafter⟩ := exists_trim s
    rw [htext, hempty]
    intro c hc
    rcases List.mem_append.mp hc with hc | hc
    · exact hbefore c hc
    · exact hafter c hc
  · intro hall
    rw [trim, List.dropWhile_eq_nil_iff.mpr hall]
    rfl

theorem tokens_trim (s : String) : tokens (Text.trim s) = tokens s := by
  obtain ⟨before, after, htext, hbefore, hafter⟩ := Text.exists_trim s
  rw [tokens, tokens, tokenize, tokenize, htext, scan_gap (gap_blank hbefore),
    scan_append_blank hafter, scan_unplaced .between (before.foldl _ _)]
  rfl

/-- From the same tokens the same is read, but for the place that an error names. -/
theorem readAll_of_tokens {s t : String} (h : tokens s = tokens t) :
    (readAll s).mapError (Error.move fun _ => {}) =
      (readAll t).mapError (Error.move fun _ => {}) := by
  have hplaced : ∀ source, (tokenize source).map (Lexeme.move fun _ => {}) =
      (tokens source).map fun token => ⟨token, {}⟩ := by
    intro source
    rw [tokens, List.map_map]
    rfl
  rw [readAll, readAll, ← Reader.forms_move, ← Reader.forms_move, hplaced, hplaced, h]

theorem readAll_trim (s : String) :
    (∀ forms, readAll (Text.trim s) = .ok forms ↔ readAll s = .ok forms) ∧
    ∀ fault, (∃ p, readAll (Text.trim s) = .error (.reader fault p)) ↔
      ∃ p, readAll s = .error (.reader fault p) := by
  have hsame := readAll_of_tokens (tokens_trim s)
  cases htrim : readAll (Text.trim s) with
  | ok forms =>
    rw [htrim] at hsame
    cases h : readAll s with
    | ok forms' =>
      rw [h] at hsame
      cases hsame
      exact ⟨fun _ => Iff.rfl, fun _ => by simp⟩
    | error e =>
      rw [h] at hsame
      cases hsame
  | error e =>
    rw [htrim] at hsame
    obtain ⟨fault, p, rfl⟩ := readAll_eq_error htrim
    cases h : readAll s with
    | ok forms =>
      rw [h] at hsame
      cases hsame
    | error e =>
      obtain ⟨fault', p', rfl⟩ := readAll_eq_error h
      rw [h] at hsame
      cases hsame
      exact ⟨fun _ => by simp, fun _ => by simp⟩

/-! ## Input that is not looked at -/

/-- The same outcome with another input. -/
def Outcome.withInput {α : Type} (input : Option (List (Option String))) : Outcome α → Outcome α
  | .ok a m => .ok a (m.withInput input)
  | .error e m => .error e (m.withInput input)
  | .paused p => .paused p

/-- From the first of two states, which are the same otherwise, the lines of input are withheld. -/
structure Withheld (lines : List (Option String)) (m n : Machine) : Prop where
  hidden : m.world.input = none
  eq : n = m.withInput (some lines)

section

variable {lines : List (Option String)}

theorem stable_withheld : Stable (Withheld lines) (· = .input) where
  same h := h.eq ▸ ⟨rfl, rfl, rfl, rfl, rfl, rfl, rfl⟩
  define _ _ _ h := ⟨h.hidden, by rw [h.eq]; rfl⟩
  enter _ h := ⟨h.hidden, by rw [h.eq]; rfl⟩
  newCell _ h := ⟨h.hidden, by rw [h.eq]; rfl⟩
  writeCell _ _ h := ⟨h.hidden, by rw [h.eq]; rfl⟩
  newObject h := ⟨h.hidden, by rw [h.eq]; rfl⟩
  print _ h := ⟨h.hidden, by rw [h.eq]; rfl⟩
  input h := .inl ⟨rfl, h.hidden⟩

/-- An evaluation that does not wait for input is the same whatever the input. -/
theorem tracks_evaluator_withheld (fuel : Nat) :
    Evaluator.Tracks (Withheld lines) (· = .input) (evaluator fuel) (evaluator fuel) := by
  induction fuel with
  | zero => exact ⟨fun _ _ => .pause .fuel, fun _ _ => .pause .fuel⟩
  | succ fuel ih =>
    constructor
    · intro code scope
      refine .nested (S := Withheld lines) ?_ ?_ ?_
      · intro m n h
        rw [h.eq]
        exact ⟨rfl, rfl⟩
      · intro m n h _
        exact Evaluator.tracks_loop stable_withheld ih (.refl _ fuel) code scope _ _
          ⟨h.hidden, by rw [h.eq]; rfl⟩
      · exact fun m n h => ⟨h.hidden, by rw [h.eq]; rfl⟩
    · exact fun f args => Evaluator.tracks_applied stable_withheld ih f args

theorem Interpreter.tracks_evalText_withheld (source : String) :
    Action.Tracks (Withheld lines) (· = .input) (evalText source) (evalText source) := by
  rw [← evalTextWith_evaluator]
  exact tracks_evalTextWith stable_withheld (tracks_evaluator_withheld fuel) source

end

/-- The same state after one more text among the errors. -/
def Machine.reported (m : Machine) (s : String) : Machine :=
  { m with world := { m.world with errors := m.world.errors ++ s } }

namespace Program

/-! ## Groups of lines -/

/-- The text that lines make together. -/
def joined (lines : List String) : String :=
  "\n".intercalate lines

theorem joined_snoc {lines : List String} (h : lines ≠ []) (line : String) :
    joined (lines ++ [line]) = joined lines ++ "\n" ++ line := by
  induction lines with
  | nil => exact absurd rfl h
  | cons first rest ih =>
    cases rest with
    | nil => simp [joined, String.intercalate_cons_cons]
    | cons second rest =>
      have hrest := ih (List.cons_ne_nil second rest)
      simp only [joined, List.cons_append, String.intercalate_cons_cons] at hrest ⊢
      rw [hrest]
      simp only [String.append_assoc]

/-- No run of the lines from their start makes a balanced text. -/
def Unfinished (lines : List String) : Prop :=
  ∀ run, run ≠ [] → run <+: lines → isBalanced (joined run) = false

/-- The lines make a balanced text, and no shorter run of them from their start does. -/
structure IsGroup (lines : List String) : Prop where
  ne_nil : lines ≠ []
  balanced : isBalanced (joined lines) = true
  shortest {run : List String} : run ≠ [] → run <+: lines → run ≠ lines →
    isBalanced (joined run) = false

/-- The lines are those of the groups, one after another, and then some that are not balanced. -/
structure Segments (lines : List String) (groups : List (List String)) (rest : List String) :
    Prop where
  eq : lines = groups.flatten ++ rest
  groups {group : List String} : group ∈ groups → IsGroup group
  rest : Unfinished rest

theorem unfinished_nil : Unfinished [] :=
  fun _ hne hrun => absurd (List.prefix_nil.mp hrun) hne

theorem Unfinished.snoc {lines : List String} (h : Unfinished lines) {line : String}
    (hline : isBalanced (joined (lines ++ [line])) = false) : Unfinished (lines ++ [line]) := by
  intro run hne hrun
  rcases List.prefix_concat_iff.mp hrun with rfl | hrun
  · exact hline
  · exact h run hne hrun

theorem Unfinished.isGroup {lines : List String} (h : Unfinished lines) {line : String}
    (hline : isBalanced (joined (lines ++ [line])) = true) : IsGroup (lines ++ [line]) := by
  refine ⟨by simp, hline, fun hne hrun hshorter => ?_⟩
  rcases List.prefix_concat_iff.mp hrun with rfl | hrun
  · exact absurd rfl hshorter
  · exact h _ hne hrun

/-- Goes through the lines, after some that are pending, and ends a group as soon as it is
balanced. -/
def segment (pending : List String) : List String → List (List String) × List String
  | [] => ([], pending)
  | line :: lines =>
    if isBalanced (joined (pending ++ [line])) then
      ((pending ++ [line]) :: (segment [] lines).1, (segment [] lines).2)
    else segment (pending ++ [line]) lines

theorem segments_segment {pending : List String} (h : Unfinished pending) (lines : List String) :
    Segments (pending ++ lines) (segment pending lines).1 (segment pending lines).2 := by
  induction lines generalizing pending with
  | nil => exact ⟨List.append_nil pending, fun hg => absurd hg List.not_mem_nil, h⟩
  | cons line lines ih =>
    rw [segment, List.append_cons]
    split
    · next hline =>
      have hrest := ih unfinished_nil
      refine ⟨?_, fun hg => ?_, hrest.rest⟩
      · have hlines : lines = (segment [] lines).1.flatten ++ (segment [] lines).2 := hrest.eq
        rw [List.flatten_cons, List.append_assoc _ (List.flatten _), ← hlines]
      · rcases List.mem_cons.mp hg with rfl | hg
        · exact h.isGroup hline
        · exact hrest.groups hg
    · next hline => exact ih (h.snoc (Bool.eq_false_iff.mpr hline))

/-- Two groups with which the same lines begin are the same: the longer one goes on where it is
balanced already. -/
theorem IsGroup.eq_of_begin {g g' lines : List String} (hg : IsGroup g) (hg' : IsGroup g')
    (h : g <+: lines) (h' : g' <+: lines) : g = g' := by
  by_contra hne
  rcases List.prefix_or_prefix_of_prefix h h' with hrun | hrun
  · have hfalse := hg'.shortest hg.ne_nil hrun hne
    rw [hg.balanced] at hfalse
    cases hfalse
  · have hfalse := hg.shortest hg'.ne_nil hrun (Ne.symm hne)
    rw [hg'.balanced] at hfalse
    cases hfalse

theorem IsGroup.not_within {g lines : List String} (hg : IsGroup g) (h : Unfinished lines) :
    ¬ g <+: lines := by
  intro hrun
  have hfalse := h g hg.ne_nil hrun
  rw [hg.balanced] at hfalse
  cases hfalse

theorem Segments.begin {lines rest g : List String} {groups : List (List String)}
    (h : Segments lines (g :: groups) rest) : IsGroup g ∧ g <+: lines := by
  refine ⟨h.groups List.mem_cons_self, ?_⟩
  rw [h.eq, List.flatten_cons, List.append_assoc]
  exact List.prefix_append g _

theorem Segments.tail {lines rest g : List String} {groups : List (List String)}
    (h : Segments (g ++ lines) (g :: groups) rest) : Segments lines groups rest := by
  refine ⟨?_, fun hm => h.groups (List.mem_cons_of_mem _ hm), h.rest⟩
  have heq := h.eq
  rwa [List.flatten_cons, List.append_assoc, List.append_cancel_left_eq] at heq

theorem Segments.unique {lines rest rest' : List String} {groups groups' : List (List String)}
    (h : Segments lines groups rest) (h' : Segments lines groups' rest') :
    groups = groups' ∧ rest = rest' := by
  induction groups generalizing lines groups' with
  | nil =>
    have hlines : lines = rest := h.eq
    cases groups' with
    | nil => exact ⟨rfl, hlines.symm.trans h'.eq⟩
    | cons g' groups' =>
      obtain ⟨hg', hbegins'⟩ := h'.begin
      exact absurd (hlines ▸ hbegins') (hg'.not_within h.rest)
  | cons g groups ih =>
    obtain ⟨hg, hbegins⟩ := h.begin
    cases groups' with
    | nil =>
      have hlines : lines = rest' := h'.eq
      exact absurd (hlines ▸ hbegins) (hg.not_within h'.rest)
    | cons g' groups' =>
      obtain ⟨hg', hbegins'⟩ := h'.begin
      obtain rfl := hg.eq_of_begin hg' hbegins hbegins'
      obtain ⟨lines, rfl⟩ := hbegins
      obtain ⟨rfl, rfl⟩ := ih h.tail h'.tail
      exact ⟨rfl, rfl⟩

/-! ## Entries -/

/-- The texts of the groups without the white space around them, blank ones left out. -/
def entries (groups : List (List String)) : List String :=
  ((groups.map joined).filter fun text => !text.toList.all Text.isBlank).map Text.trim

/-- What the user is told of an error: a line with the thrown value or the message, and if a name is
not found a line with the known name that is closest to it, unless none is close. -/
def reportText (m : Machine) : Error → String
  | .thrown v => "Error: " ++ v.text m.cells .readable ++ "\n"
  | .unbound name => "Error: '" ++ name ++ "' not found\n" ++
    match Text.suggest name (knownNames m) with
    | some known => "  Hint: did you mean '" ++ known ++ "'?\n"
    | none => ""
  | e => "Error: " ++ e.message ++ "\n"

/-- A report is one text among the errors, and changes nothing else. -/
theorem report_eq (e : Error) (m : Machine) :
    report e m = .ok () (m.reported (reportText m e)) := by
  have hwrites : report e m =
      .ok () (m.reported ("Error: " ++ errorText m.cells e ++ "\n" ++ hint m e)) := rfl
  rw [hwrites]
  cases e with
  | unbound name =>
    have hmessage : errorText m.cells (.unbound name) = "'" ++ name ++ "' not found" := rfl
    have htext : reportText m (.unbound name) =
        "Error: '" ++ name ++ "' not found\n" ++ hint m (.unbound name) := rfl
    have hbegin : "Error: '" = "Error: " ++ "'" := by decide
    have hend : "' not found\n" = "' not found" ++ "\n" := by decide
    rw [hmessage, htext]
    generalize hint m (.unbound name) = line
    rw [hbegin, hend]
    simp only [String.append_assoc, -String.reduceAppend]
  | _ => simp only [errorText, hint, reportText, String.append_empty]

theorem reportText_withInput (m : Machine) (input : Option (List (Option String))) (e : Error) :
    reportText (m.withInput input) e = reportText m e := by
  have hcells : (m.withInput input).cells = m.cells := rfl
  have hknown : knownNames (m.withInput input) = knownNames m := rfl
  cases e <;> simp only [reportText, hcells, hknown]

/-- Evaluates a text and does something with the value, or tells the user of the error. -/
def evalOrReport (source : String) (done : Value → Machine → Machine) : Action Unit := fun m =>
  match Interpreter.evalText source m with
  | .ok v n => .ok () (done v n)
  | .error e n => .ok () (n.reported (reportText n e))
  | .paused p => .paused p

/-- Evaluates an entry, and writes its value on a line or tells the user of its error. -/
def respond (entry : String) : Action Unit :=
  evalOrReport entry fun v n => n.printed (v.text n.cells .readable ++ "\n")

/-- Responds to one entry after another. -/
def respondAll : List String → Action Unit
  | [] => return ()
  | entry :: rest => do
    respond entry
    respondAll rest

/-- What the loop begins with, and then responses to entries. -/
def interact (texts : List String) : Action Unit := do
  evalOrReport Repl.banner fun _ n => n
  respondAll texts

theorem evalOrReport_ne_error {source : String} {done : Value → Machine → Machine} {m n : Machine}
    {e : Error} : evalOrReport source done m ≠ .error e n := by
  unfold evalOrReport
  cases Interpreter.evalText source m <;> exact fun h => nomatch h

section

variable {lines : List (Option String)} {done : Value → Machine → Machine}
  (hdone : ∀ v m n, Withheld lines m n → Withheld lines (done v m) (done v n))
include hdone

theorem tracks_evalOrReport (source : String) :
    Action.Tracks (Withheld lines) (· = .input) (evalOrReport source done)
      (evalOrReport source done) := by
  intro m n h
  have htext := Interpreter.tracks_evalText_withheld source m n h
  unfold evalOrReport
  generalize Interpreter.evalText source m = o, Interpreter.evalText source n = o' at htext ⊢
  cases htext with
  | ok h => exact .ok (hdone _ _ _ h)
  | error h =>
    refine .ok ⟨h.hidden, ?_⟩
    rw [h.eq, reportText_withInput]
    rfl
  | paused => exact .paused
  | gaveUp hp => exact .gaveUp hp

/-- A text is evaluated without a look at the lines, and what takes the lines afterwards goes on
where the run without them goes on. -/
theorem evalOrReport_bind {source : String} {x y : Action Unit} {m : Machine}
    (hm : m.world.input = none)
    (hxy : ∀ n, n.world.input = none → x n ≠ .paused .input →
      y (n.withInput (some lines)) = (x n).withInput (some []))
    (ho : (evalOrReport source done >>= fun _ => x) m ≠ .paused .input) :
    (evalOrReport source done >>= fun _ => y) (m.withInput (some lines)) =
      ((evalOrReport source done >>= fun _ => x) m).withInput (some []) := by
  have hagree := tracks_evalOrReport hdone source m (m.withInput (some lines)) ⟨hm, rfl⟩
  have herror : ∀ {n e}, evalOrReport source done m ≠ .error e n := evalOrReport_ne_error
  rw [Action.bind_apply] at ho ⊢
  rw [Action.bind_apply]
  generalize evalOrReport source done m = o,
    evalOrReport source done (m.withInput (some lines)) = o' at hagree herror ho ⊢
  cases hagree with
  | ok h =>
    obtain ⟨hnone, rfl⟩ := h
    exact hxy _ hnone ho
  | error h => exact absurd rfl herror
  | paused => rfl
  | gaveUp hp => exact absurd (congrArg Outcome.paused hp) ho

end

theorem attempt_eq_evalOrReport {source : String} {done : Value → Machine → Machine}
    {f : Except Error Value → Action Unit} (hok : ∀ v n, f (.ok v) n = .ok () (done v n))
    (herror : ∀ e, f (.error e) = report e) :
    Action.attempt (Interpreter.evalText source) f = evalOrReport source done := by
  funext m
  unfold Action.attempt evalOrReport
  cases Interpreter.evalText source m with
  | ok v n => exact hok v n
  | error e n => exact (congrFun (herror e) n).trans (report_eq e n)
  | paused p => rfl

theorem answer_eq (text : String) :
    Repl.answer text =
      if text.toList.all Text.isBlank then return () else respond (Text.trim text) := by
  rw [Repl.answer, Text.isEmpty_trim, attempt_eq_evalOrReport (fun _ _ => rfl) fun _ => rfl]
  rfl

/-- A text that is not blank is answered by one text: its value on a line of the output, or else the
report of its error. -/
theorem answer_of_evalText {text : String} (h : text.toList.all Text.isBlank = false)
    (m n : Machine) :
    (∀ v, Interpreter.evalText (Text.trim text) m = .ok v n →
      Repl.answer text m = .ok () (n.printed (v.text n.cells .readable ++ "\n"))) ∧
    ∀ e, Interpreter.evalText (Text.trim text) m = .error e n →
      Repl.answer text m = .ok () (n.reported (reportText n e)) := by
  rw [answer_eq, if_neg (Bool.eq_false_iff.mp h), respond, evalOrReport]
  constructor
  · intro v hv
    rw [hv]
  · intro e he
    rw [he]

/-! ## The loop -/

/-- The text of an entry of which some lines are there. -/
def entryOf : List String → Option String
  | [] => none
  | line :: lines => some (joined (line :: lines))

theorem extend_entryOf (pending : List String) (line : String) :
    Repl.extend (entryOf pending) line = joined (pending ++ [line]) := by
  cases pending with
  | nil => simp [entryOf, Repl.extend, joined]
  | cons first rest =>
    rw [joined_snoc (List.cons_ne_nil first rest)]
    rfl

theorem entryOf_snoc (pending : List String) (line : String) :
    entryOf (pending ++ [line]) = some (joined (pending ++ [line])) := by
  cases pending <;> rfl

theorem entries_cons (group : List String) (groups : List (List String)) :
    entries (group :: groups) = if (joined group).toList.all Text.isBlank then entries groups
      else Text.trim (joined group) :: entries groups := by
  unfold entries
  rw [List.map_cons, List.filter_cons]
  split <;> simp_all

/-- A round takes a line, and an entry that it ends is answered before the next round. -/
theorem rounds_line (limit : Nat) (entry : Option String) (m : Machine) (line : String)
    (rest : List (Option String)) :
    Repl.rounds (limit + 1) entry (m.withInput (some (some line :: rest))) =
      (if isBalanced (Repl.extend entry (Action.chomp line)) then (do
        Repl.answer (Repl.extend entry (Action.chomp line))
        Repl.rounds limit none)
      else Repl.rounds limit (some (Repl.extend entry (Action.chomp line))))
        (m.withInput (some rest)) :=
  rfl

/-- The rounds from some pending lines on come to the responses to the groups that follow. -/
theorem rounds_eq_respondAll {raw : List String} {limit : Nat} (hlimit : raw.length < limit)
    (pending : List String) {m : Machine} (hm : m.world.input = none)
    (ho : respondAll (entries (segment pending (raw.map Action.chomp)).1) m ≠ .paused .input) :
    Repl.rounds limit (entryOf pending) (m.withInput (some (raw.map some))) =
      (respondAll (entries (segment pending (raw.map Action.chomp)).1) m).withInput (some []) := by
  -- The induction is on the lines to come. What the loop carries along is the text of the pending
  -- ones, none where a group has just ended.
  induction raw generalizing limit pending m with
  | nil =>
    obtain ⟨k, rfl⟩ := Nat.exists_eq_add_of_lt hlimit
    rfl
  | cons line raw ih =>
    obtain ⟨k, rfl⟩ : ∃ k, limit = k + 1 := ⟨limit - 1, by omega⟩
    have hlimit' : raw.length < k := Nat.lt_of_succ_lt_succ hlimit
    rw [List.map_cons (f := Action.chomp), segment] at ho ⊢
    rw [List.map_cons, rounds_line, extend_entryOf]
    by_cases hbalanced : isBalanced (joined (pending ++ [Action.chomp line])) = true
    · rw [if_pos hbalanced] at ho ⊢
      rw [if_pos hbalanced, answer_eq]
      rw [entries_cons] at ho ⊢
      by_cases hblank : (joined (pending ++ [Action.chomp line])).toList.all Text.isBlank = true
      · rw [if_pos hblank] at ho ⊢
        rw [if_pos hblank]
        exact ih hlimit' [] hm ho
      · rw [if_neg hblank] at ho ⊢
        rw [if_neg hblank]
        refine evalOrReport_bind ?_ hm (fun n hn hno => ih hlimit' [] hn hno) ho
        exact fun v m n h => ⟨h.hidden, by rw [h.eq]; rfl⟩
    · rw [if_neg hbalanced] at ho ⊢
      rw [if_neg hbalanced, ← entryOf_snoc]
      exact ih hlimit' _ hm ho

/-- What comes after the greeting: the rounds for the lines of input. -/
def takeLines : Action Unit := fun m =>
  match m.world.input with
  | none => .paused .input
  | some lines => Repl.rounds (lines.length + 1) none m

theorem run_eq : Repl.run = evalOrReport Repl.banner (fun _ n => n) >>= fun _ => takeLines := by
  rw [Repl.run, attempt_eq_evalOrReport (fun _ _ => rfl) fun _ => rfl]
  refine congrArg (_ >>= ·) (funext fun _ => funext fun m => ?_)
  unfold takeLines
  simp only [Action.bind_apply, Action.get]
  cases m.world.input <;> rfl

/-- The loop responds to the entries among its lines and to nothing else. -/
theorem run_eq_interact {raw : List String} {m : Machine} (hm : m.world.input = none)
    (ho : interact (entries (segment [] (raw.map Action.chomp)).1) m ≠ .paused .input) :
    Repl.run (m.withInput (some (raw.map some))) =
      (interact (entries (segment [] (raw.map Action.chomp)).1) m).withInput (some []) := by
  rw [run_eq]
  refine evalOrReport_bind (fun _ _ _ h => h) hm (fun n hn hno => ?_) ho
  have hlimit : raw.length < (raw.map some).length + 1 := by
    rw [List.length_map]
    exact Nat.lt_succ_self _
  exact rounds_eq_respondAll hlimit [] hn hno

/-- Lines fall into groups in one way. If no entry waits for input, the loop does with the lines
what is done with the entries, once each and in order, whether they fail or not, in a state from
which the lines are withheld; and it leaves no lines over. A text that is not blank is answered with
its value on a line of the output or with a report among the errors, one text in either case, and
nothing else changes after it is evaluated. White space around a text changes nothing about what is
read from it but the places that errors name. With fewer than 2 ^ 31 brackets in a text, the depth
at any place in it is a number of 32 bits. -/
theorem loop_evaluates_entries :
    (∀ lines, ∃ groups rest, Segments lines groups rest ∧
      ∀ groups' rest', Segments lines groups' rest' → groups' = groups ∧ rest' = rest) ∧
    (∀ (raw : List String) (m : Machine) groups rest, Segments (raw.map Action.chomp) groups rest →
      interact (entries groups) (m.withInput none) ≠ .paused .input →
      Repl.run (m.withInput (some (raw.map some))) =
        (interact (entries groups) (m.withInput none)).withInput (some [])) ∧
    (∀ (text : String) (m n : Machine), text.toList.all Text.isBlank = false →
      (∀ v, Interpreter.evalText (Text.trim text) m = .ok v n →
        Repl.answer text m = .ok () (n.printed (v.text n.cells .readable ++ "\n"))) ∧
      ∀ e, Interpreter.evalText (Text.trim text) m = .error e n →
        Repl.answer text m = .ok () (n.reported (reportText n e))) ∧
    (∀ s, (∀ forms, readAll (Text.trim s) = .ok forms ↔ readAll s = .ok forms) ∧
      ∀ fault, (∃ p, readAll (Text.trim s) = .error (.reader fault p)) ↔
        ∃ p, readAll s = .error (.reader fault p)) ∧
    ∀ before after : String, (before ++ after).toList.countP isBracket < Nat.pow 2 31 →
      Int32.minValue.toInt ≤ (before.toList.foldl Balance.step {}).depth ∧
      (before.toList.foldl Balance.step {}).depth ≤ Int32.maxValue.toInt := by
  refine ⟨fun lines => ?_, fun raw m groups rest h ho => ?_,
    fun _ m n h => answer_of_evalText h m n, readAll_trim, fun _ _ h => Balance.depth_bounds h⟩
  · have hlines := segments_segment unfinished_nil lines
    exact ⟨_, _, hlines, fun _ _ h => h.unique hlines⟩
  · obtain ⟨rfl, rfl⟩ := h.unique (segments_segment unfinished_nil _)
    exact run_eq_interact rfl ho

/-- A list over three lines, the second of which is a comment with a bracket, a blank line, an entry
that throws, one with a misspelt name, one after these, and a list without an end. The first and the
last entry are answered on the output, the two between them each with one report. -/
theorem loop_evaluates_entries_past_failure :
    let raw := ["(list 1\n", "; )\r\n", " 2) \n", " \n", "(throw 3)\n", "(lisst 4)\n", ":a\n",
      "(list\n"]
    let groups := [["(list 1", "; )", " 2) "], [" "], ["(throw 3)"], ["(lisst 4)"], [":a"]]
    let m := Interpreter.start false 9 {}
    Segments (raw.map Action.chomp) groups ["(list"] ∧
      entries groups = ["(list 1\n; )\n 2)", "(throw 3)", "(lisst 4)", ":a"] ∧
      (∃ n, interact (entries groups) (m.withInput none) = .ok () n ∧
        Repl.run (m.withInput (some (raw.map some))) = .ok () (n.withInput (some [])) ∧
        n.world.output = "Mal [" ++ hostLanguage ++ "]\n(1 2)\n:a\n" ∧
        n.world.errors =
          "Error: 3\nError: 'lisst' not found\n  Hint: did you mean 'list'?\n") ∧
      ∃ e n, Interpreter.evalText "(throw 3)" m = .error e n ∧
        Repl.answer " (throw 3)" m = .ok () (n.reported "Error: 3\n") := by
  intro raw groups m
  have hsegment : segment [] (raw.map Action.chomp) = (groups, ["(list"]) := by decide +kernel
  have hgroups := segments_segment unfinished_nil (raw.map Action.chomp)
  rw [hsegment] at hgroups
  obtain ⟨_, n, hinteract, hn⟩ := Outcome.exists_of_okWith
    (fun _ n => decide (n.world.output = "Mal [" ++ hostLanguage ++ "]\n(1 2)\n:a\n" ∧
      n.world.errors = "Error: 3\nError: 'lisst' not found\n  Hint: did you mean 'list'?\n"))
    (o := interact (entries groups) (m.withInput none)) (by decide +kernel)
  obtain ⟨houtput, herrors⟩ := of_decide_eq_true hn
  obtain ⟨-, hloop, hanswer, -, -⟩ := loop_evaluates_entries
  have hrun := hloop raw m groups ["(list"] hgroups
    (fun hpaused => nomatch hinteract.symm.trans hpaused)
  rw [hinteract] at hrun
  obtain ⟨e, k, hthrow, he⟩ := Outcome.exists_of_errorWith
    (fun e n => decide (reportText n e = "Error: 3\n"))
    (o := Interpreter.evalText "(throw 3)" m) (by decide +kernel)
  have htrim : Text.trim " (throw 3)" = "(throw 3)" := by decide +kernel
  have hreport := (hanswer " (throw 3)" m k (by decide)).2 e (by rw [htrim, hthrow])
  rw [of_decide_eq_true he] at hreport
  exact ⟨hgroups, by decide +kernel, ⟨n, hinteract, hrun, houtput, herrors⟩, e, k, hthrow, hreport⟩

end Program

end Lisp
