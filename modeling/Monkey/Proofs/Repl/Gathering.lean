import Monkey.Proofs.Token.Append
import Monkey.Repl.Input

/-! Which lines make up which input. A text is cut into lines behind its line feeds and nowhere
else. No line is lost, doubled or moved: the inputs follow each other as their lines do, only blank
lines between them are left out, and nothing is read behind a line that ends the session. Each input
ends as soon as no bracket is open. -/
namespace Monkey

/-! ### Blank texts -/

namespace Text

lemma trim_eq_empty_iff (text : String) :
    trim text = "" ↔ ∀ c ∈ text.toList, isBlank c = true := by
  have hreverse (cs : List Char) : cs.reverse.dropWhile isBlank = [] ↔
      ∀ c ∈ cs, isBlank c = true := by simp [List.dropWhile_eq_nil_iff]
  rw [trim, String.ofList_eq_empty_iff, List.reverse_eq_nil_iff, hreverse]
  constructor
  · intro h
    rw [← List.takeWhile_append_dropWhile (p := isBlank) (l := text.toList)]
    exact List.forall_mem_append.mpr ⟨fun c hc => List.mem_takeWhile_imp hc, h⟩
  · intro h c hc
    exact h c (List.dropWhile_sublist isBlank |>.subset hc)

end Text

namespace Repl

/-- A text without tokens has no open bracket. -/
lemma trim_ne_empty_of_isUnclosed {source : String} (h : isUnclosed source = true) :
    Text.trim source ≠ "" := by
  intro hblank
  have htokens : (TokenStream.ofSource source).tokens = [] := by
    have hnil : Cursor.tokens ⟨0, source.toList ++ []⟩ = [] :=
      Cursor.tokens_of_blank ((Text.trim_eq_empty_iff _).mp hblank)
    rwa [List.append_nil] at hnil
  rw [isUnclosed, openBrackets, htokens] at h
  cases h

/-! ### The lines of a text -/

/-- A text cut into lines: each ends with its line feed and has no other, but for the last, which
may do without. -/
inductive AreLines : List String → Prop
  | nil : AreLines []
  | last {line : String} (hne : line ≠ "") (h : '\n' ∉ line.toList) : AreLines [line]
  | cons {line : String} {rest : List String} (h : '\n' ∉ line.toList) (hrest : AreLines rest) :
      AreLines ((line ++ "\n") :: rest)

/-- A further character in front goes to the first line, if there is one. -/
lemma AreLines.push {c : Char} {line : String} {rest : List String} (hc : c ≠ '\n')
    (h : AreLines (line :: rest)) : AreLines ((String.singleton c ++ line) :: rest) := by
  cases h with
  | last hne h => exact .last (by simp) (by simp [h, hc.symm])
  | cons h hrest =>
    rw [← String.append_assoc]
    exact .cons (by simp [h, hc.symm]) hrest

lemma areLines_splitLines (text : List Char) :
    AreLines ((splitLines text).map String.ofList) := by
  induction text with
  | nil => exact .nil
  | cons c rest ih =>
    rw [splitLines]
    split
    · next hc =>
      subst hc
      exact @AreLines.cons "" _ (by simp) ih
    · next hc =>
      split
      · exact .last (by simp) (by simpa using Ne.symm hc)
      · next line lines hlines =>
        rw [hlines] at ih
        have hpush := AreLines.push hc ih
        rwa [String.singleton_eq_ofList, ← String.ofList_append] at hpush

lemma splitLines_of_not_mem {line : List Char} (hne : line ≠ []) (h : '\n' ∉ line) :
    splitLines line = [line] := by
  induction line with
  | nil => exact absurd rfl hne
  | cons c rest ih =>
    rw [List.mem_cons, not_or] at h
    rw [splitLines, if_neg (Ne.symm h.1)]
    by_cases hnil : rest = []
    · rw [hnil]
      rfl
    · rw [ih hnil h.2]

lemma splitLines_append {line : List Char} (h : '\n' ∉ line) (rest : List Char) :
    splitLines (line ++ '\n' :: rest) = (line ++ ['\n']) :: splitLines rest := by
  induction line with
  | nil => rfl
  | cons c line ih =>
    rw [List.mem_cons, not_or] at h
    rw [List.cons_append, splitLines, if_neg (Ne.symm h.1), ih h.2]
    rfl

lemma AreLines.lines_join {ls : List String} (h : AreLines ls) : lines (String.join ls) = ls := by
  induction h with
  | nil => rfl
  | last hne h => simp [lines, splitLines_of_not_mem _ h, hne]
  | cons h _ ih =>
    rw [lines, String.toList_join] at ih
    simp [lines, splitLines_append h, ih]

lemma join_lines (text : String) : String.join (lines text) = text := by
  apply String.toList_injective
  rw [String.toList_join, lines, List.flatMap_map]
  simp [flatten_splitLines]

lemma lines_eq_iff {text : String} {ls : List String} :
    lines text = ls ↔ AreLines ls ∧ String.join ls = text := by
  constructor
  · rintro rfl
    exact ⟨areLines_splitLines _, join_lines text⟩
  · rintro ⟨h, rfl⟩
    exact h.lines_join

/-! ### Inputs -/

abbrev IsFarewell (line : String) : Prop := Text.trim line = "exit" ∨ Text.trim line = "quit"

abbrev IsBlank (line : String) : Prop := Text.trim line = ""

/-- The text of lines, with a further line feed behind each. -/
def written (lines : List String) : String := String.join (lines.map (· ++ "\n"))

@[simp] lemma written_nil : written [] = "" := String.join_nil

@[simp] lemma written_append (a b : List String) : written (a ++ b) = written a ++ written b := by
  rw [written, List.map_append, String.join_append, written, written]

@[simp] lemma written_singleton (line : String) : written [line] = line ++ "\n" := by
  simp [written]

lemma written_eq_empty_iff {group : List String} : written group = "" ↔ group = [] := by
  cases group with
  | nil => simp
  | cons line rest => simp [written, String.append_eq_empty_iff]

lemma join_map_written (groups : List (List String)) :
    String.join (groups.map written) = written groups.flatten := by
  induction groups with
  | nil => simp
  | cons group rest ih => simp [ih]

/-- Lines that make up one input: the first of them starts one, and as long as there are fewer of
them a bracket is open. -/
structure Gathered (group : List String) : Prop where
  nonempty : group ≠ []
  first : ∀ line ∈ group.head?, ¬IsBlank line ∧ ¬IsFarewell line
  proper : ∀ before, before <+: group → before ≠ [] → before ≠ group →
    isUnclosed (written before) = true

/-- The inputs that lines make up. The last one may be left open at the end. -/
inductive Portions : List String → List (List String) → Prop
  | done : Portions [] []
  | farewell {line : String} {rest : List String} (h : IsFarewell line) :
      Portions (line :: rest) []
  | blank {line : String} {rest : List String} {inputs : List (List String)} (h : IsBlank line)
      (hrest : Portions rest inputs) : Portions (line :: rest) inputs
  | closed {group rest : List String} {inputs : List (List String)} (h : Gathered group)
      (hclosed : isUnclosed (written group) = false) (hrest : Portions rest inputs) :
      Portions (group ++ rest) (group :: inputs)
  | unclosed {group : List String} (h : Gathered group)
      (hopen : isUnclosed (written group) = true) : Portions group [group]

/-! ### What waits -/

/-- What waits once a line has been read. -/
def Pending.read (p : Pending) (line : String) : Pending :=
  match step p line with
  | .quit => p
  | .wait next => next
  | .run _ next => next

/-- The lines, each with what waits when it is read. -/
def readings (p : Pending) : List String → List (Pending × String)
  | [] => []
  | line :: rest => (p, line) :: readings (p.read line) rest

/-- The line ends the session. -/
def Quits (p : Pending) (line : String) : Prop := p.isEmpty ∧ IsFarewell line

/-- The line is skipped. -/
def Skips (p : Pending) (line : String) : Prop := p.isEmpty ∧ IsBlank line

instance (p : Pending) (line : String) : Decidable (Quits p line) :=
  inferInstanceAs (Decidable (_ ∧ _))

instance (p : Pending) (line : String) : Decidable (Skips p line) :=
  inferInstanceAs (Decidable (_ ∧ _))

/-- The lines before the first that ends the session, without those that are skipped. -/
def kept (p : Pending) (lines : List String) : List String :=
  (((readings p lines).takeWhile fun r => ¬Quits r.1 r.2).filter fun r => ¬Skips r.1 r.2).map (·.2)

section
variable {p : Pending} {line : String}

lemma Skips.not_quits (h : Skips p line) : ¬Quits p line := by
  rintro ⟨-, hfarewell⟩
  rw [IsFarewell, h.2] at hfarewell
  revert hfarewell
  decide

lemma step_of_quits (h : Quits p line) : step p line = .quit := if_pos h

lemma step_of_skips (h : Skips p line) : step p line = .wait p :=
  (if_neg h.not_quits).trans (if_pos h)

lemma kept_of_quits (h : Quits p line) (rest : List String) : kept p (line :: rest) = [] := by
  simp [kept, readings, h]

lemma kept_of_skips (h : Skips p line) (rest : List String) :
    kept p (line :: rest) = kept p rest := by
  have hread : p.read line = p := by rw [Pending.read, step_of_skips h]
  simp [kept, readings, h, h.not_quits, hread]

end

/-- The lines can wait: the first of them starts an input, and after each a bracket is open. -/
structure Waiting (group : List String) : Prop where
  first : ∀ line ∈ group.head?, ¬IsBlank line ∧ ¬IsFarewell line
  unclosed : ∀ before, before <+: group → before ≠ [] → isUnclosed (written before) = true

lemma waiting_nil : Waiting [] :=
  ⟨nofun, fun _ hbefore hne => absurd (List.prefix_nil.mp hbefore) hne⟩

variable {group : List String} {line : String}

lemma isEmpty_written : (⟨written group⟩ : Pending).isEmpty = true ↔ group = [] := by
  rw [Pending.isEmpty, beq_iff_eq, written_eq_empty_iff]

/-- The line goes to those that wait: where there are none, it has to start an input. -/
def Joins (group : List String) (line : String) : Prop :=
  group = [] → ¬IsBlank line ∧ ¬IsFarewell line

lemma quits_or_skips_or_joins (group : List String) (line : String) :
    group = [] ∧ Quits ⟨written group⟩ line ∨ group = [] ∧ Skips ⟨written group⟩ line ∨
      Joins group line := by
  by_cases hgroup : group = []
  · have hempty := isEmpty_written.mpr hgroup
    by_cases hfarewell : IsFarewell line
    · exact .inl ⟨hgroup, hempty, hfarewell⟩
    · by_cases hblank : IsBlank line
      · exact .inr (.inl ⟨hgroup, hempty, hblank⟩)
      · exact .inr (.inr fun _ => ⟨hblank, hfarewell⟩)
  · exact .inr (.inr fun h => absurd h hgroup)

namespace Waiting

lemma isUnclosed (h : Waiting group) (hne : group ≠ []) : isUnclosed (written group) = true :=
  h.unclosed group List.prefix_rfl hne

/-- With one line more, the lines are an input or wait on. -/
lemma gathered (h : Waiting group) (hline : Joins group line) : Gathered (group ++ [line]) where
  nonempty := by simp
  first := by
    cases group with
    | nil => simpa using hline rfl
    | cons first rest => simpa using h.first
  proper before hbefore hne hproper :=
    h.unclosed before ((List.prefix_concat_iff.mp hbefore).resolve_left hproper) hne

lemma concat (h : Waiting group) (hline : Joins group line)
    (hopen : Repl.isUnclosed (written (group ++ [line])) = true) : Waiting (group ++ [line]) where
  first := (h.gathered hline).first
  unclosed before hbefore hne := by
    by_cases hall : before = group ++ [line]
    · rwa [hall]
    · exact (h.gathered hline).proper before hbefore hne hall

lemma finish_eq (h : Waiting group) :
    (⟨written group⟩ : Pending).finish.1 = if group = [] then none else some (written group) := by
  by_cases hne : group = []
  · subst hne
    rfl
  · have hblank := trim_ne_empty_of_isUnclosed (h.isUnclosed hne)
    rw [Pending.finish, if_neg hblank, if_neg hne]

end Waiting

namespace Joins

lemma not_quits (h : Joins group line) : ¬Quits ⟨written group⟩ line :=
  fun hquits => (h (isEmpty_written.mp hquits.1)).2 hquits.2

lemma not_skips (h : Joins group line) : ¬Skips ⟨written group⟩ line :=
  fun hskips => (h (isEmpty_written.mp hskips.1)).1 hskips.2

lemma step_eq (h : Joins group line) : step ⟨written group⟩ line =
    if isUnclosed (written (group ++ [line])) = true then .wait ⟨written (group ++ [line])⟩
    else .run (written (group ++ [line])) ⟨written []⟩ := by
  have htext : written group ++ line ++ "\n" = written (group ++ [line]) := by
    simp [String.append_assoc]
  refine (if_neg h.not_quits).trans ((if_neg h.not_skips).trans ?_)
  rw [Pending.push, htext]
  by_cases hopen : isUnclosed (written (group ++ [line])) = true
  · simp only [if_pos hopen]
  · simp only [if_neg hopen]
    rfl

lemma read_eq (h : Joins group line) : (⟨written group⟩ : Pending).read line =
    if isUnclosed (written (group ++ [line])) = true then ⟨written (group ++ [line])⟩
    else ⟨written []⟩ := by
  rw [Pending.read, h.step_eq]
  by_cases hopen : isUnclosed (written (group ++ [line])) = true
  · simp only [if_pos hopen]
  · simp only [if_neg hopen]

lemma kept_eq (h : Joins group line) (rest : List String) : kept ⟨written group⟩ (line :: rest) =
    line :: kept ((⟨written group⟩ : Pending).read line) rest := by
  simp [kept, readings, h.not_quits, h.not_skips]

end Joins

/-! ### All lines -/

/-- The inputs that the lines make up behind those that wait. -/
structure Conveys (group lines : List String) (inputs : List (List String)) : Prop where
  portions : Portions (group ++ lines) inputs
  sources_eq : sources ⟨written group⟩ lines = inputs.map written
  flatten_eq : inputs.flatten = group ++ kept ⟨written group⟩ lines
  finish : ∀ input ∈ inputs, isUnclosed (written input) = true →
    (lines.foldl Pending.read ⟨written group⟩).finish.1 = some (written input)

lemma Waiting.conveys_nil (h : Waiting group) : ∃ inputs, Conveys group [] inputs := by
  by_cases hne : group = []
  · subst hne
    exact ⟨[], .done, rfl, rfl, nofun⟩
  · have hfinish := h.finish_eq
    rw [if_neg hne] at hfinish
    have hgathered : Gathered group := ⟨hne, h.first, fun before hbefore hb _ =>
      h.unclosed before hbefore hb⟩
    refine ⟨[group], ?_, ?_, ?_, ?_⟩
    · rw [List.append_nil]
      exact .unclosed hgathered (h.isUnclosed hne)
    · rw [sources, hfinish]
      rfl
    · simp [kept, readings]
    · simpa using fun _ => hfinish

lemma conveys_of_quits (h : Quits ⟨written []⟩ line) (rest : List String) :
    Conveys [] (line :: rest) [] where
  portions := .farewell h.2
  sources_eq := by rw [sources, step_of_quits h]; rfl
  flatten_eq := by rw [kept_of_quits h]; rfl
  finish := nofun

variable {inputs : List (List String)} {rest : List String}

lemma Conveys.skip (hrest : Conveys [] rest inputs) (h : Skips ⟨written []⟩ line) :
    Conveys [] (line :: rest) inputs where
  portions := .blank h.2 hrest.portions
  sources_eq := by rw [sources, step_of_skips h]; exact hrest.sources_eq
  flatten_eq := by rw [kept_of_skips h]; exact hrest.flatten_eq
  finish input hinput hopen := by
    rw [List.foldl_cons, Pending.read, step_of_skips h]
    exact hrest.finish input hinput hopen

/-- The line leaves a bracket open, and waits with the others. -/
lemma Conveys.wait (hrest : Conveys (group ++ [line]) rest inputs) (h : Joins group line)
    (hopen : isUnclosed (written (group ++ [line])) = true) :
    Conveys group (line :: rest) inputs where
  portions := by simpa using hrest.portions
  sources_eq := by
    rw [sources, h.step_eq, if_pos hopen]
    exact hrest.sources_eq
  flatten_eq := by
    rw [h.kept_eq, h.read_eq, if_pos hopen]
    simpa using hrest.flatten_eq
  finish input hinput hunclosed := by
    rw [List.foldl_cons, h.read_eq, if_pos hopen]
    exact hrest.finish input hinput hunclosed

/-- The line closes the last bracket, and with the others it is an input. -/
lemma Conveys.run (hrest : Conveys [] rest inputs) (hwaiting : Waiting group)
    (h : Joins group line) (hclosed : ¬isUnclosed (written (group ++ [line])) = true) :
    Conveys group (line :: rest) ((group ++ [line]) :: inputs) where
  portions := by
    have hportions := Portions.closed (hwaiting.gathered h) (Bool.eq_false_iff.mpr hclosed)
      hrest.portions
    simpa using hportions
  sources_eq := by
    rw [sources, h.step_eq, if_neg hclosed, List.map_cons]
    exact congrArg (_ :: ·) hrest.sources_eq
  flatten_eq := by
    rw [h.kept_eq, h.read_eq, if_neg hclosed]
    simpa using hrest.flatten_eq
  finish input hinput hunclosed := by
    rw [List.foldl_cons, h.read_eq, if_neg hclosed]
    rcases List.mem_cons.mp hinput with rfl | hinput
    · exact absurd hunclosed hclosed
    · exact hrest.finish input hinput hunclosed

theorem Waiting.conveys (h : Waiting group) (lines : List String) :
    ∃ inputs, Conveys group lines inputs := by
  induction lines generalizing group with
  | nil => exact h.conveys_nil
  | cons line rest ih =>
    rcases quits_or_skips_or_joins group line with ⟨rfl, hline⟩ | ⟨rfl, hline⟩ | hline
    · exact ⟨[], conveys_of_quits hline rest⟩
    · obtain ⟨inputs, hrest⟩ := ih h
      exact ⟨inputs, hrest.skip hline⟩
    · by_cases hopen : Repl.isUnclosed (written (group ++ [line])) = true
      · obtain ⟨inputs, hrest⟩ := ih (h.concat hline hopen)
        exact ⟨inputs, hrest.wait hline hopen⟩
      · obtain ⟨inputs, hrest⟩ := ih waiting_nil
        exact ⟨_, hrest.run h hline hopen⟩

/-- Whatever has been read, lines wait that can wait. -/
lemma exists_waiting (lines : List String) :
    ∃ group, Waiting group ∧ lines.foldl Pending.read {} = ⟨written group⟩ := by
  suffices ∀ group, Waiting group → ∃ group', Waiting group' ∧
      lines.foldl Pending.read ⟨written group⟩ = ⟨written group'⟩ from this [] waiting_nil
  induction lines with
  | nil => exact fun group h => ⟨group, h, rfl⟩
  | cons line rest ih =>
    intro group h
    rw [List.foldl_cons]
    rcases quits_or_skips_or_joins group line with ⟨rfl, hline⟩ | ⟨rfl, hline⟩ | hline
    · rw [Pending.read, step_of_quits hline]
      exact ih [] waiting_nil
    · rw [Pending.read, step_of_skips hline]
      exact ih [] waiting_nil
    · rw [hline.read_eq]
      split
      · next hopen => exact ih _ (h.concat hline hopen)
      · exact ih [] waiting_nil

/-- The lines of a text are the only way to cut it so that a line feed ends each. Whatever the lines
are, they are read in order. Those before a farewell make up the inputs, but for blank lines between
them; an input ends where no bracket is open, or with the last line. What waits behind any lines is
nothing or has a bracket open, so nothing of it is lost at the end. -/
theorem sources_lines :
    (∀ (text : String) (ls : List String),
        lines text = ls ↔ AreLines ls ∧ String.join ls = text) ∧
      ∀ ls : List String, String.join (sources {} ls) = written (kept {} ls) ∧
        (∃ inputs, Portions ls inputs ∧ inputs.flatten = kept {} ls ∧
          sources {} ls = inputs.map written ∧
          ∀ input ∈ inputs, isUnclosed (written input) = true →
            (ls.foldl Pending.read {}).finish.1 = some (written input)) ∧
        ((ls.foldl Pending.read {}).isEmpty = true ∨
          isUnclosed (ls.foldl Pending.read {}).text = true) ∧
        ((ls.foldl Pending.read {}).finish.1 = none ↔
          (ls.foldl Pending.read {}).isEmpty = true) := by
  refine ⟨fun _ _ => lines_eq_iff, fun ls => ?_⟩
  obtain ⟨inputs, hinputs⟩ := waiting_nil.conveys ls
  refine ⟨?_, ⟨inputs, hinputs.portions, hinputs.flatten_eq, hinputs.sources_eq, hinputs.finish⟩,
    ?_⟩
  · calc String.join (sources {} ls)
        = String.join (inputs.map written) := congrArg String.join hinputs.sources_eq
      _ = written inputs.flatten := join_map_written inputs
      _ = written (kept {} ls) := congrArg written hinputs.flatten_eq
  · obtain ⟨group, hgroup, hwaits⟩ := exists_waiting ls
    rw [hwaits, hgroup.finish_eq, isEmpty_written]
    by_cases hne : group = []
    · simp [hne]
    · simp [hne, hgroup.isUnclosed hne]

end Repl
end Monkey
