import Mathlib.Data.String.Basic
import Monkey.Proofs.Token.Longest

/-! Where the tokens of a source stand. They and the blanks around them make up the whole source,
each span is where the text of its token is found, and behind the last one there is only the end
token, however often one asks. -/
namespace Monkey

/-- A piece of a text, with what stands before and behind it. -/
structure Excerpt (source : List Char) where
  before : List Char
  text : List Char
  after : List Char
  eq_append : source = before ++ (text ++ after)

def Excerpt.span {source : List Char} (e : Excerpt source) : Span :=
  .ofText (byteLength e.before) e.text

/-- The spans before, between and behind the tokens of a text from `start` to `stop`. -/
def gaps (start : Nat) : List Token → Nat → List Span
  | [], stop => [⟨start, stop⟩]
  | t :: ts, stop => ⟨start, t.span.start⟩ :: gaps t.span.stop ts stop

lemma byteLength_toList (s : String) : byteLength s.toList = s.utf8ByteSize := by
  rw [← String.utf8Len_toList]
  induction s.toList with
  | nil => rfl
  | cons c cs ih => rw [byteLength, ih, String.utf8Len_cons, Nat.add_comm]

lemma byteLength_pos {text : List Char} (h : text ≠ []) : 0 < byteLength text := by
  obtain ⟨c, cs, rfl⟩ := List.exists_cons_of_ne_nil h
  exact Nat.add_pos_left c.utf8Size_pos _

/-- What a source holds from the byte `pos` on. -/
def From (source : List Char) (pos : Nat) (rest : List Char) : Prop :=
  ∃ before, source = before ++ rest ∧ pos = byteLength before

namespace From

variable {source text rest : List Char} {pos : Nat}

lemma byteLength_eq (h : From source pos rest) : byteLength source = pos + byteLength rest := by
  obtain ⟨before, rfl, rfl⟩ := h
  exact byteLength_append before rest

lemma skip (h : From source pos (text ++ rest)) : From source (pos + byteLength text) rest := by
  obtain ⟨before, rfl, rfl⟩ := h
  exact ⟨before ++ text, (List.append_assoc ..).symm, (byteLength_append ..).symm⟩

lemma exists_excerpt (h : From source pos (text ++ rest)) :
    ∃ e : Excerpt source, e.span = .ofText pos text ∧ e.text = text ∧ e.after = rest := by
  obtain ⟨before, hsource, rfl⟩ := h
  exact ⟨⟨before, text, rest, hsource⟩, rfl, rfl, rfl⟩

end From

/-- A text that begins at `pos` is made of these tokens and blanks around them. -/
inductive Layout : Nat → List Char → List Token → Prop
  | blank {pos : Nat} {text : List Char} (h : ∀ c ∈ text, Text.isBlank c = true) :
      Layout pos text []
  | token {pos : Nat} {blanks text rest : List Char} {t : Token} {ts : List Token}
      (hblank : ∀ c ∈ blanks, Text.isBlank c = true)
      (hspan : t.span = .ofText (pos + byteLength blanks) text)
      (hreads : ReadsAs t.kind t.literal text rest) (hrest : Layout t.span.stop rest ts) :
      Layout pos (blanks ++ (text ++ rest)) (t :: ts)

namespace Cursor

lemma isBlank_of_next?_eq_none {cur : Cursor} (h : cur.next? = none) :
    ∀ c ∈ cur.rest, Text.isBlank c = true := by
  unfold next? at h
  split at h
  · next hskip => exact List.dropWhile_eq_nil_iff.mp (congrArg Cursor.rest hskip)
  · cases h

/-- One token further: blanks, the text of the token, and what is left. -/
lemma next?_eq_some {cur next : Cursor} {t : Token} (h : cur.next? = some (t, next)) :
    ∃ blanks text, cur.rest = blanks ++ (text ++ next.rest) ∧
      (∀ c ∈ blanks, Text.isBlank c = true) ∧
      t.span = .ofText (cur.pos + byteLength blanks) text ∧ next.pos = t.span.stop ∧
      ReadsAs t.kind t.literal text next.rest := by
  unfold next? at h
  split at h
  · cases h
  · next pos c rest hskip =>
    obtain ⟨hpos, hrest⟩ := Cursor.mk.inj hskip
    cases h
    refine ⟨cur.rest.takeWhile Text.isBlank, (Lexeme.read c rest).raw, ?_,
      fun d hd => List.mem_takeWhile_imp hd, by rw [hpos], rfl, Lexeme.readsAs_read c rest⟩
    rw [Lexeme.raw_append_rest, ← hrest, List.takeWhile_append_dropWhile]

theorem layout (cur : Cursor) : Layout cur.pos cur.rest cur.tokens := by
  induction hn : cur.rest.length using Nat.strong_induction_on generalizing cur with
  | _ n ih =>
    cases hnext : cur.next? with
    | none =>
      rw [tokens_of_next?_eq_none hnext]
      exact .blank (isBlank_of_next?_eq_none hnext)
    | some result =>
      obtain ⟨t, next⟩ := result
      obtain ⟨blanks, text, hrest, hblank, hspan, hpos, hreads⟩ := next?_eq_some hnext
      have hlt : next.rest.length < n := hn ▸ length_next?_lt hnext
      rw [tokens_of_next?_eq_some hnext, hrest]
      exact .token hblank hspan hreads (hpos ▸ ih _ hlt next rfl)

end Cursor

namespace Layout

/-- The text of each token is found in the source where its span says. -/
theorem exists_excerpt {pos : Nat} {text : List Char} {ts : List Token} (h : Layout pos text ts)
    {source : List Char} (hfrom : From source pos text) {t : Token} (ht : t ∈ ts) :
    ∃ e : Excerpt source, e.span = t.span ∧ ReadsAs t.kind t.literal e.text e.after := by
  induction h with
  | blank => cases ht
  | @token pos blanks text rest first ts hblank hspan hreads hrest ih =>
    have hskip := hfrom.skip
    rcases List.mem_cons.mp ht with rfl | ht
    · obtain ⟨e, he, rfl, rfl⟩ := hskip.exists_excerpt
      exact ⟨e, he.trans hspan.symm, hreads⟩
    · exact ih (hspan ▸ hskip.skip) ht

/-- Only blanks stand between the tokens. -/
theorem exists_blank {pos : Nat} {text : List Char} {ts : List Token} (h : Layout pos text ts)
    {source : List Char} (hfrom : From source pos text) {gap : Span}
    (hgap : gap ∈ gaps pos ts (byteLength source)) :
    ∃ e : Excerpt source, e.span = gap ∧ ∀ c ∈ e.text, Text.isBlank c = true := by
  induction h with
  | @blank pos text hblank =>
    obtain rfl := List.mem_singleton.mp hgap
    rw [← List.append_nil text] at hfrom
    obtain ⟨e, he, rfl, -⟩ := hfrom.exists_excerpt
    refine ⟨e, he.trans ?_, hblank⟩
    rw [Span.ofText, hfrom.skip.byteLength_eq, byteLength, Nat.add_zero]
  | @token pos blanks text rest first ts hblank hspan hreads hrest ih =>
    rcases List.mem_cons.mp hgap with rfl | hgap
    · obtain ⟨e, he, rfl, -⟩ := hfrom.exists_excerpt
      exact ⟨e, by rw [he, hspan]; rfl, hblank⟩
    · exact ih (hspan ▸ hfrom.skip.skip) hgap

lemma le_start {pos : Nat} {text : List Char} {ts : List Token} (h : Layout pos text ts) :
    ∀ t ∈ ts, pos ≤ t.span.start := by
  induction h with
  | blank => nofun
  | @token pos blanks text rest first ts hblank hspan hreads hrest ih =>
    have hstart : pos ≤ first.span.start := by
      rw [hspan]
      exact Nat.le_add_right _ _
    have hstop : first.span.start ≤ first.span.stop := by
      rw [hspan]
      exact Nat.le_add_right _ _
    exact List.forall_mem_cons.mpr
      ⟨hstart, fun t ht => (hstart.trans hstop).trans (ih t ht)⟩

theorem ordered {pos : Nat} {text : List Char} {ts : List Token} (h : Layout pos text ts) :
    ts.Pairwise fun a b => a.span.stop ≤ b.span.start := by
  induction h with
  | blank => exact .nil
  | token hblank hspan hreads hrest ih => exact .cons hrest.le_start ih

end Layout

/-! ### Behind the last token -/

namespace Cursor

lemma eof_of_next?_eq_some {cur next : Cursor} {t : Token} (h : cur.next? = some (t, next)) :
    next.eof = cur.eof := by
  obtain ⟨blanks, text, hrest, -, hspan, hpos, -⟩ := next?_eq_some h
  rw [eof, eof, hpos, hspan, hrest, byteLength_append, byteLength_append]
  simp only [Span.ofText, Nat.add_assoc]

lemma skipBlanks_of_next?_eq_none {cur : Cursor} (h : cur.next? = none) :
    cur.skipBlanks = ⟨cur.pos + byteLength cur.rest, []⟩ := by
  have hblank := isBlank_of_next?_eq_none h
  rw [skipBlanks, List.takeWhile_eq_self_iff.mpr hblank, List.dropWhile_eq_nil_iff.mpr hblank]

/-- The tokens come first, and all that comes after them is the end token. -/
theorem take_eq (cur : Cursor) (n : Nat) : cur.take n =
    cur.tokens.take n ++ List.replicate (n - cur.tokens.length) cur.eof := by
  induction n generalizing cur with
  | zero => simp [take]
  | succ n ih =>
    cases hnext : cur.next? with
    | none =>
      have hskip := skipBlanks_of_next?_eq_none hnext
      have hagain : cur.skipBlanks.next? = none :=
        next?_eq_none_of_rest_eq_nil (congrArg Cursor.rest hskip)
      have heof : cur.skipBlanks.eof = cur.eof := by rw [hskip]; rfl
      have hfirst : cur.next = (cur.eof, cur.skipBlanks) := by rw [next, hnext, hskip]; rfl
      rw [take, hfirst, ih, tokens_of_next?_eq_none hnext, tokens_of_next?_eq_none hagain, heof]
      simp [List.replicate_succ]
    | some result =>
      obtain ⟨t, next⟩ := result
      have hfirst : cur.next = (t, next) := by rw [Cursor.next, hnext]
      rw [take, hfirst, ih, tokens_of_next?_eq_some hnext, eof_of_next?_eq_some hnext]
      simp

end Cursor

/-- The tokens are those of the source: in order and apart, each read from the text that its span
cuts out, and with nothing but blanks in the gaps that they leave. -/
structure Cover (source : String) (ts : List Token) : Prop where
  nonempty : ∀ t ∈ ts, t.span.start < t.span.stop
  ordered : ts.Pairwise fun a b => a.span.stop ≤ b.span.start
  reads : ∀ t ∈ ts, ∃ e : Excerpt source.toList, e.span = t.span ∧
    ReadsAs t.kind t.literal e.text e.after
  blank : ∀ gap ∈ gaps 0 ts source.utf8ByteSize, ∃ e : Excerpt source.toList, e.span = gap ∧
    ∀ c ∈ e.text, Text.isBlank c = true

lemma Layout.cover {source : String} {ts : List Token} (h : Layout 0 source.toList ts) :
    Cover source ts := by
  have hfrom : From source.toList 0 source.toList := ⟨[], rfl, rfl⟩
  refine ⟨fun t ht => ?_, h.ordered, fun t => h.exists_excerpt hfrom, fun gap hgap => ?_⟩
  · obtain ⟨e, hspan, hreads⟩ := h.exists_excerpt hfrom ht
    rw [← hspan]
    exact Nat.lt_add_of_pos_right (byteLength_pos hreads.ne_nil)
  · rw [← byteLength_toList] at hgap
    exact h.exists_blank hfrom hgap

/-- A source has finitely many tokens, which cover it, and then its end token for ever. -/
theorem tokens_cover_source (source : String) :
    Cover source (Cursor.ofSource source).tokens ∧
    (∀ t ∈ (Cursor.ofSource source).tokens, t.kind ≠ .eof) ∧
    ∀ n, (Cursor.ofSource source).take n = (Cursor.ofSource source).tokens.take n ++
      List.replicate (n - (Cursor.ofSource source).tokens.length)
        (Token.eof source.utf8ByteSize) := by
  have hlayout := (Cursor.ofSource source).layout
  have heof : (Cursor.ofSource source).eof = .eof source.utf8ByteSize := by
    rw [Cursor.eof, ← byteLength_toList]
    exact congrArg Token.eof (Nat.zero_add _)
  exact ⟨hlayout.cover, fun t => (Cursor.ofSource source).kind_ne_eof_of_mem_tokens,
    fun n => heof ▸ (Cursor.ofSource source).take_eq n⟩

/-- A letter of two bytes, and a quoted text that an unknown escape breaks off before its quote. -/
theorem tokens_cover_source_brokenQuote :
    ∃ t ∈ (Cursor.ofSource "é \"\\q\"").tokens, t.kind = .illegal ∧ t.span = ⟨3, 6⟩ ∧
      ∃ e : Excerpt "é \"\\q\"".toList, e.span = t.span ∧ t.literal = String.ofList e.text ∧
        IsIllegal e.text e.after := by
  have ht : ⟨.illegal, "\"\\q", ⟨3, 6⟩⟩ ∈ (Cursor.ofSource "é \"\\q\"").tokens := by decide
  obtain ⟨e, hspan, hreads⟩ := (tokens_cover_source "é \"\\q\"").1.reads _ ht
  exact ⟨_, ht, rfl, rfl, e, hspan, hreads.literal_eq nofun, hreads.illegal_iff.mp rfl⟩

end Monkey
