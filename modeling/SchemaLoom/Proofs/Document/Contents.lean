import Mathlib
import SchemaLoom.Loader
import SchemaLoom.Proofs.Document.Parsing
import SchemaLoom.Proofs.Merge.Unlocated

/-! Documents one after the other. The definitions of a text that is made of several texts are those
of each of them, if every one ends with a line feed and none begins with a brace. -/

namespace SchemaLoom

namespace Parser

/-- A cursor whose tokens end where its text ends without a fault. -/
def Sound (c : Cursor) : Prop := c.tokens = [] → c.ending.isFinished = true

def alone (c : Cursor) : Continuation where
  tokens := c.tokens
  ending := c.ending
  lexemes := []
  begins := by simp

theorem relates_alone {c c' : Cursor} (h : Sound c)
    (hl : c'.tokens.map Token.lexeme = c.tokens.map Token.lexeme)
    (hf : c'.ending.isFinished = true) : (alone c).Relates c c' :=
  ⟨List.suffix_rfl, by rw [hl]; exact (List.append_nil _).symm, rfl, h, hf⟩

section Definitions

variable {c d e : Cursor} {x y : Definition} {xs : List Definition} {n : Nat}

theorem itemsToEnd_run_end (hc : c.tokens = []) (item : Parser α) (n : Nat) :
    (itemsToEnd item (n + 1)).run c = .ok ([], c) := by
  rw [itemsToEnd, Continuation.peek_bind_run, hc]
  rfl

theorem itemsToEnd_run_next {as : List α} {item : Parser α} (hc : c.tokens ≠ []) :
    (itemsToEnd item (n + 1)).run c = .ok (as, d) ↔ ∃ a e rest, item.run c = .ok (a, e) ∧
      (itemsToEnd item n).run e = .ok (rest, d) ∧ a :: rest = as := by
  have hrun : (itemsToEnd item (n + 1)).run c = (item.run c >>= fun found =>
      (itemsToEnd item n).run found.2 >>= fun more => .ok (found.1 :: more.1, more.2)) := by
    obtain ⟨t, left, ht⟩ := List.exists_cons_of_ne_nil hc
    rw [itemsToEnd, Continuation.peek_bind_run, ht]
    rfl
  rw [hrun]
  constructor
  · intro h
    obtain ⟨⟨a, e⟩, ha, h⟩ := exists_of_bind_eq_ok h
    obtain ⟨⟨rest, f⟩, hrest, h⟩ := exists_of_bind_eq_ok h
    obtain ⟨hcons, rfl⟩ := Prod.mk.inj (Except.ok.inj h)
    exact ⟨a, e, rest, ha, hrest, hcons⟩
  · rintro ⟨a, e, rest, ha, hrest, rfl⟩
    rw [ha]
    change ((itemsToEnd item n).run e >>= _) = _
    rw [hrest]
    rfl

theorem itemsToEnd_run_zero {as : List α} {item : Parser α} :
    (itemsToEnd item 0).run c ≠ .ok (as, d) := fails_unexpected c as d

/-- A list that is read does not depend on how many items would be read at most. -/
theorem itemsToEnd_run_of_lt {as : List α} {item : Parser α} {m : Nat}
    (h : (itemsToEnd item n).run c = .ok (as, d)) (hm : as.length < m) :
    (itemsToEnd item m).run c = .ok (as, d) := by
  induction n generalizing c as m with
  | zero => exact absurd h itemsToEnd_run_zero
  | succ n ih =>
    obtain ⟨m, rfl⟩ : ∃ less, m = less + 1 := ⟨m - 1, by omega⟩
    by_cases hc : c.tokens = []
    · rw [itemsToEnd_run_end hc] at h ⊢
      exact h
    · obtain ⟨a, e, rest, ha, hrest, rfl⟩ := (itemsToEnd_run_next hc).mp h
      exact (itemsToEnd_run_next hc).mpr
        ⟨a, e, rest, ha, ih hrest (Nat.lt_of_succ_lt_succ hm), rfl⟩

theorem relates_finished (hc : Sound c) {c' : Cursor}
    (hl : c'.tokens.map Token.lexeme = c.tokens.map Token.lexeme) :
    (alone c).Relates c { c' with ending := .finished 0 } :=
  relates_alone hc hl rfl

theorem definition_run_alone (hc : Sound c) (hx : definition.run c = .ok (x, d)) :
    Sound d ∧ d.tokens <:+ c.tokens ∧ d.ending = c.ending := by
  obtain ⟨_, _, _, _, hrel⟩ := Continuation.agrees_definition (relates_finished hc rfl) hx
  exact ⟨fun hd => hrel.ending ▸ hrel.finished hd, hrel.suffix, hrel.ending⟩

/-- What is left after a definition depends on the lexemes only. -/
theorem lexemes_definition_run (hc : Sound c) (hd : Sound d)
    (hl : d.tokens.map Token.lexeme = c.tokens.map Token.lexeme) {c' d' : Cursor}
    (hx : definition.run c = .ok (x, c')) (hy : definition.run d = .ok (y, d')) :
    d'.tokens.map Token.lexeme = c'.tokens.map Token.lexeme := by
  -- Both runs agree with the run at the first cursor if its text ended without a fault.
  obtain ⟨_, e, hrun, -, hrel⟩ := Continuation.agrees_definition (relates_finished hc rfl) hx
  obtain ⟨_, e', hrun', -, hrel'⟩ := Continuation.agrees_definition
    (relates_finished hd hl.symm) hy
  rw [hrun] at hrun'
  obtain rfl : e = e' := (Prod.mk.inj (Except.ok.inj hrun')).2
  have hlexemes := hrel.lexemes.symm.trans hrel'.lexemes
  simpa [alone] using hlexemes.symm

/-- Where a definition takes no token, the next one takes none either, and so on without end. -/
theorem itemsToEnd_run_stuck (hc : Sound c) (hne : c.tokens ≠ [])
    (hx : definition.run c = .ok (x, d))
    (hl : d.tokens.map Token.lexeme = c.tokens.map Token.lexeme) :
    (itemsToEnd definition n).run d ≠ .ok (xs, e) := by
  induction n generalizing c d x xs with
  | zero => exact itemsToEnd_run_zero
  | succ n ih =>
    intro h
    have hd := (definition_run_alone hc hx).1
    have hned : d.tokens ≠ [] := fun hnil => hne (by simpa [hnil] using hl.symm)
    obtain ⟨y, d', rest, hy, hrest, -⟩ := (itemsToEnd_run_next hned).mp h
    exact ih hd hned hy ((lexemes_definition_run hc hd hl hx hy).trans rfl) hrest

/-- Every definition takes a token at least, if the definitions come to an end. -/
theorem length_definition_run (hc : Sound c) (hne : c.tokens ≠ [])
    (hx : definition.run c = .ok (x, d)) (hxs : (itemsToEnd definition n).run d = .ok (xs, e)) :
    d.tokens.length < c.tokens.length := by
  have hsuffix := (definition_run_alone hc hx).2.1
  by_contra hlt
  have heq := hsuffix.eq_of_length (Nat.le_antisymm hsuffix.length_le (Nat.le_of_not_lt hlt))
  exact itemsToEnd_run_stuck hc hne hx (by rw [heq]) hxs

theorem length_itemsToEnd_run (hc : Sound c)
    (h : (itemsToEnd definition n).run c = .ok (xs, e)) : xs.length ≤ c.tokens.length := by
  induction n generalizing c xs with
  | zero => exact absurd h itemsToEnd_run_zero
  | succ n ih =>
    by_cases hne : c.tokens = []
    · rw [itemsToEnd_run_end hne] at h
      obtain ⟨rfl, -⟩ := Prod.mk.inj (Except.ok.inj h)
      exact Nat.zero_le _
    · obtain ⟨x, d, rest, hx, hrest, rfl⟩ := (itemsToEnd_run_next hne).mp h
      have hlt := length_definition_run hc hne hx hrest
      have hle := ih (definition_run_alone hc hx).1 hrest
      rw [List.length_cons]
      omega

theorem itemsToEnd_run_sound (hc : Sound c)
    (h : (itemsToEnd definition n).run c = .ok (xs, e)) :
    c.ending.isFinished = true := by
  induction n generalizing c xs with
  | zero => exact absurd h itemsToEnd_run_zero
  | succ n ih =>
    by_cases hne : c.tokens = []
    · exact hc hne
    · obtain ⟨x, d, rest, hx, hrest, -⟩ := (itemsToEnd_run_next hne).mp h
      obtain ⟨hd, -, hending⟩ := definition_run_alone hc hx
      exact hending ▸ ih hd hrest

/-! ### Texts that follow each other -/

/-- The definitions, up to locations, that certain lexemes are read as. -/
def Reads (lexemes : List Lexeme) (ds : List Definition) : Prop :=
  ∀ c : Cursor, c.tokens.map Token.lexeme = lexemes → c.ending.isFinished = true →
    ∃ n own d, (itemsToEnd definition n).run c = .ok (own, d) ∧ own.map Definition.unlocated = ds

theorem reads_nil : Reads [] [] := fun _ hl _ =>
  ⟨1, [], _, itemsToEnd_run_end (List.map_eq_nil_iff.mp hl) definition 0, rfl⟩

theorem reads_of_relates {k : Continuation} {ds : List Definition} (hmore : Reads k.lexemes ds)
    {c' : Cursor} (hrel : k.Relates c c')
    (h : (itemsToEnd definition n).run c = .ok (xs, e)) :
    ∃ m own d', (itemsToEnd definition m).run c' = .ok (own, d') ∧
      own.map Definition.unlocated = xs.map Definition.unlocated ++ ds := by
  induction n generalizing c c' xs with
  | zero => exact absurd h itemsToEnd_run_zero
  | succ n ih =>
    by_cases hne : c.tokens = []
    · rw [itemsToEnd_run_end hne] at h
      obtain ⟨rfl, -⟩ := Prod.mk.inj (Except.ok.inj h)
      exact hmore c' (by simpa [hne] using hrel.lexemes) hrel.finished'
    · obtain ⟨x, d, rest, hx, hrest, rfl⟩ := (itemsToEnd_run_next hne).mp h
      obtain ⟨y, d', hy, hxy, hrel'⟩ := Continuation.agrees_definition hrel hx
      obtain ⟨m, own, e', hown, heq⟩ := ih hrel' hrest
      have hne' : c'.tokens ≠ [] := fun hnil => by simpa [hnil, hne] using hrel.lexemes
      refine ⟨m + 1, y :: own, e', (itemsToEnd_run_next hne').mpr ⟨y, d', own, hy, hown, rfl⟩, ?_⟩
      rw [List.map_cons, List.map_cons, heq, List.cons_append, hxy]

end Definitions

theorem at?_bind_run (m : Punctuator) (f : Bool → Parser β) (c : Cursor) :
    (at? m >>= f).run c = (f (c.tokens.head?.map Token.lexeme = some (.punctuator m))).run c := rfl

/-- A definition begins with a brace or with a lexeme that nothing else can begin with. -/
theorem beginsDefinition_of_run {c d : Cursor} {x : Definition} {t : Token} {rest : List Token}
    (hx : definition.run c = .ok (x, d)) (hc : c.tokens = t :: rest)
    (hbrace : t.lexeme ≠ .punctuator .braceL) : t.lexeme.beginsDefinition = true := by
  by_contra hb
  have hshort : decide (some t.lexeme = some (.punctuator .braceL)) = false :=
    decide_eq_false fun h => hbrace (Option.some.inj h)
  have hd : isDescription (some t.lexeme) = false := by
    cases ht : t.lexeme with
    | string _ => simp [ht, Lexeme.beginsDefinition] at hb
    | blockString _ => simp [ht, Lexeme.beginsDefinition] at hb
    | _ => rfl
  rw [definition, at?_bind_run, hc, List.head?_cons, Option.map_some, hshort,
    if_neg Bool.false_ne_true, peekLexeme_bind_run, hc, List.head?_cons, Option.map_some, hd,
    if_neg Bool.false_ne_true, Continuation.peek_bind_run, hc, List.head?_cons] at hx
  simp only [Option.map_some] at hx
  cases ht : t.lexeme with
  | name word =>
    rw [ht] at hx hb
    obtain ⟨hnone, hword⟩ : described? word = none ∧ word ≠ "extend" := by
      simpa [Lexeme.beginsDefinition] using hb
    simp only [hnone, if_neg hword] at hx
    exact Continuation.fails_unexpectedToken _ c x d hx
  | punctuator m =>
    rw [ht] at hx hbrace
    cases m with
    | braceL => exact hbrace rfl
    | _ => exact Continuation.fails_unexpectedToken _ c x d hx
  | string _ => simp [ht, Lexeme.beginsDefinition] at hb
  | blockString _ => simp [ht, Lexeme.beginsDefinition] at hb
  | _ =>
    rw [ht] at hx
    exact Continuation.fails_unexpectedToken _ c x d hx

theorem needsToken_definition : NeedsToken definition := by
  intro c x d hc h
  obtain ⟨tokens, ending, previous, body⟩ := c
  obtain rfl : tokens = [] := hc
  cases h

theorem document_run (c : Cursor) :
    document.run c = (checkEnding c.tokens c.ending >>= fun _ => definition.run c >>= fun first =>
      (itemsToEnd definition (first.2.tokens.length + 1)).run first.2 >>= fun rest =>
      .ok (⟨first.1 :: rest.1⟩, rest.2)) := by
  have hcheck : document.run c = (checkEnding c.tokens c.ending >>= fun _ =>
      (do
        let first ← definition
        return ⟨first :: (← itemsToEnd definition ((← tokensLeft) + 1))⟩ :
          Parser Document).run c) := by
    cases h : checkEnding c.tokens c.ending <;> simp [document, h]
  rw [hcheck]
  rfl

theorem document_run_eq_ok_iff {c : Cursor} {ds : List Definition} :
    (∃ e, document.run c = .ok (⟨ds⟩, e)) ↔ Sound c ∧ c.tokens ≠ [] ∧
      ∃ n e, (itemsToEnd definition n).run c = .ok (ds, e) := by
  rw [document_run]
  constructor
  · rintro ⟨e, h⟩
    obtain ⟨_, hcheck, h⟩ := exists_of_bind_eq_ok h
    obtain ⟨⟨x, d⟩, hx, h⟩ := exists_of_bind_eq_ok h
    obtain ⟨⟨xs, e'⟩, hxs, h⟩ := exists_of_bind_eq_ok h
    obtain ⟨hdoc, rfl⟩ := Prod.mk.inj (Except.ok.inj h)
    have hne : c.tokens ≠ [] := fun hnil => needsToken_definition c x d hnil hx
    refine ⟨checkEnding_eq_ok_iff.mp hcheck, hne, d.tokens.length + 2, e', ?_⟩
    exact (itemsToEnd_run_next hne).mpr ⟨x, d, xs, hx, hxs, Document.mk.inj hdoc⟩
  · rintro ⟨hc, hne, n, e, h⟩
    cases n with
    | zero => exact absurd h itemsToEnd_run_zero
    | succ n =>
      obtain ⟨x, d, xs, hx, hxs, rfl⟩ := (itemsToEnd_run_next hne).mp h
      have hle := length_itemsToEnd_run (definition_run_alone hc hx).1 hxs
      refine ⟨e, ?_⟩
      rw [checkEnding_eq_ok_iff.mpr hc, hx]
      change ((itemsToEnd definition (d.tokens.length + 1)).run d >>= _) = _
      rw [itemsToEnd_run_of_lt hxs (Nat.lt_succ_of_le hle)]
      rfl

end Parser

open SchemaLoom.Parser

def Document.cursor (body : String) (located : Bool) : Cursor :=
  ⟨(lex body.toList).tokens, (lex body.toList).ending, 0, if located then some body else none⟩

theorem Document.parse_eq_ok_iff {body : String} {located : Bool} {ds : List Definition} :
    Document.parse body located = .ok ⟨ds⟩ ↔
      Sound (cursor body located) ∧ (cursor body located).tokens ≠ [] ∧
        ∃ n e, (itemsToEnd definition n).run (cursor body located) = .ok (ds, e) := by
  rw [← document_run_eq_ok_iff]
  change (document.run (cursor body located)).map Prod.fst = .ok ⟨ds⟩ ↔ _
  cases document.run (cursor body located) with
  | error e => simp [Except.map]
  | ok result => simp [Except.map, Prod.ext_iff]

/-- A text that can stand among others: it ends with a line feed and does not begin with a brace,
and there are definitions in it or nothing at all. -/
structure IsContent (located : Bool) (content : String) : Prop where
  endsLine : EndsLine content.toList
  noBrace : (lex content.toList).tokens.head?.map Token.lexeme ≠ some (.punctuator .braceL)
  own : (∃ d, Document.parse content located = .ok d) ∨ isBlank content.toList = true

instance (located : Bool) (content : String) : Decidable (IsContent located content) :=
  decidable_of_iff (EndsLine content.toList ∧
      (lex content.toList).tokens.head?.map Token.lexeme ≠ some (.punctuator .braceL) ∧
      ((Document.parse content located).toOption.isSome = true ∨ isBlank content.toList = true))
    ⟨fun ⟨hends, hbrace, hown⟩ => ⟨hends, hbrace, hown.imp_left isSome_toOption_iff.mp⟩,
      fun h => ⟨h.endsLine, h.noBrace, h.own.imp_left isSome_toOption_iff.mpr⟩⟩

def documentsOf (contents : List String) (located : Bool) : List Document :=
  contents.filterMap fun content => (Document.parse content located).toOption

section Contents

variable {located : Bool} {content : String} {contents : List String} {d : Document}

theorem documentsOf_cons_ok (h : Document.parse content located = .ok d) :
    documentsOf (content :: contents) located = d :: documentsOf contents located := by
  rw [documentsOf, List.filterMap_cons, h]
  rfl

theorem documentsOf_cons_blank (h : isBlank content.toList = true) :
    documentsOf (content :: contents) located = documentsOf contents located := by
  have hnone : (lex content.toList).tokens = [] :=
    List.map_eq_nil_iff.mp (lexesTo_of_isBlank h 0).1
  have hparse : (Document.parse content located).toOption = none := by
    cases hp : Document.parse content located with
    | error e => rfl
    | ok d => exact absurd hnone (Document.parse_eq_ok_iff.mp hp).2.1
  rw [documentsOf, List.filterMap_cons, hparse]
  rfl

/-- The lexemes of a content can follow those of another. -/
theorem IsContent.begins (h : IsContent located content)
    (hd : Document.parse content located = .ok d) :
    ∀ lexeme ∈ ((lex content.toList).tokens.map Token.lexeme).head?,
      lexeme.beginsDefinition = true := by
  obtain ⟨-, hne, n, e, hrun⟩ := Document.parse_eq_ok_iff.mp hd
  obtain ⟨t, rest, ht⟩ := List.exists_cons_of_ne_nil hne
  have hlex : (lex content.toList).tokens = t :: rest := ht
  have hbrace : t.lexeme ≠ .punctuator .braceL := fun heq => h.noBrace (by simp [hlex, heq])
  cases n with
  | zero => exact absurd hrun itemsToEnd_run_zero
  | succ n =>
    obtain ⟨x, left, -, hx, -, -⟩ := (itemsToEnd_run_next hne).mp hrun
    intro lexeme hm
    rw [hlex, List.map_cons, List.head?_cons, Option.mem_some_iff] at hm
    exact hm ▸ beginsDefinition_of_run hx ht hbrace

/-- A content with definitions, and lexemes that follow it. -/
theorem reads_append (h : Document.parse content located = .ok d) {lexemes : List Lexeme}
    {ds : List Definition} (hbegins : ∀ lexeme ∈ lexemes.head?, lexeme.beginsDefinition = true)
    (hreads : Reads lexemes ds) :
    Reads ((lex content.toList).tokens.map Token.lexeme ++ lexemes)
      (d.definitions.map Definition.unlocated ++ ds) := by
  obtain ⟨hsound, -, n, e, hrun⟩ := Document.parse_eq_ok_iff.mp h
  intro c hlexemes hfinished
  let k : Continuation :=
    ⟨(lex content.toList).tokens, (lex content.toList).ending, lexemes, hbegins⟩
  have hrel : k.Relates (Document.cursor content located) c :=
    ⟨List.suffix_rfl, hlexemes, rfl, hsound, hfinished⟩
  exact reads_of_relates hreads hrel hrun

theorem reads_contents (h : ∀ content ∈ contents, IsContent located content) :
    ∃ lexemes, LexesTo (contents.flatMap String.toList) lexemes ∧
      (∀ lexeme ∈ lexemes.head?, lexeme.beginsDefinition = true) ∧
      Reads lexemes ((allDefinitions (documentsOf contents located)).map Definition.unlocated) := by
  induction contents with
  | nil => exact ⟨[], lexesTo_nil, by simp, reads_nil⟩
  | cons content rest ih =>
    obtain ⟨lexemes, hlexes, hbegins, hreads⟩ :=
      ih fun other hm => h other (List.mem_cons_of_mem _ hm)
    have hcontent := h content (List.mem_cons_self ..)
    rw [List.flatMap_cons]
    rcases hcontent.own with ⟨d, hd⟩ | hblank
    · have hown := hcontent.begins hd
      obtain ⟨hsound, hne, n, e, hrun⟩ := Document.parse_eq_ok_iff.mp hd
      have hfinished : (lexFrom 0 content.toList).ending.isFinished = true :=
        itemsToEnd_run_sound hsound hrun
      have hlexed := lexesTo_of_finished hfinished
      refine ⟨_, hlexed.append (.inr hcontent.endsLine) hlexes, ?_, ?_⟩
      · obtain ⟨t, left, ht⟩ := List.exists_cons_of_ne_nil hne
        have hlex : (lex content.toList).tokens = t :: left := ht
        intro lexeme hm
        refine hown lexeme ?_
        change lexeme ∈ ((lex content.toList).tokens.map Token.lexeme ++ lexemes).head? at hm
        rw [hlex] at hm ⊢
        exact hm
      · rw [documentsOf_cons_ok hd, allDefinitions, List.flatMap_cons, List.map_append]
        exact reads_append hd hbegins hreads
    · refine ⟨_, (lexesTo_of_isBlank hblank).append (.inr hcontent.endsLine) hlexes, hbegins, ?_⟩
      rw [documentsOf_cons_blank hblank]
      exact hreads

theorem definitions_ne_nil (h : Document.parse content located = .ok d) : d.definitions ≠ [] := by
  obtain ⟨-, hne, n, e, hrun⟩ := Document.parse_eq_ok_iff.mp h
  cases n with
  | zero => exact absurd hrun itemsToEnd_run_zero
  | succ n =>
    obtain ⟨x, left, rest, -, -, hcons⟩ := (itemsToEnd_run_next hne).mp hrun
    exact hcons ▸ List.cons_ne_nil x rest

/-- Contents that are parsed together have the definitions of all of them. -/
theorem parse_join (h : ∀ content ∈ contents, IsContent located content)
    (hsome : ∃ content ∈ contents, ∃ d, Document.parse content located = .ok d)
    (together : Bool) :
    ∃ d, Document.parse (String.join contents) together = .ok d ∧
      d.definitions.map Definition.unlocated =
        (allDefinitions (documentsOf contents located)).map Definition.unlocated := by
  obtain ⟨lexemes, hlexes, -, hreads⟩ := reads_contents h
  rw [← String.toList_join] at hlexes
  let c := Document.cursor (String.join contents) together
  have hfinished : c.ending.isFinished = true := (hlexes 0).2
  obtain ⟨n, own, e, hrun, hown⟩ := hreads c (hlexes 0).1 hfinished
  have hne : c.tokens ≠ [] := by
    intro hnil
    cases n with
    | zero => exact itemsToEnd_run_zero hrun
    | succ n =>
      rw [itemsToEnd_run_end hnil] at hrun
      obtain ⟨rfl, -⟩ := Prod.mk.inj (Except.ok.inj hrun)
      obtain ⟨content, hm, d, hd⟩ := hsome
      have hmem : d ∈ documentsOf contents located :=
        List.mem_filterMap.mpr ⟨content, hm, by rw [hd]; rfl⟩
      have hempty : allDefinitions (documentsOf contents located) = [] :=
        List.map_eq_nil_iff.mp hown.symm
      exact definitions_ne_nil hd (List.flatMap_eq_nil_iff.mp hempty d hmem)
  exact ⟨⟨own⟩, Document.parse_eq_ok_iff.mpr ⟨fun _ => hfinished, hne, n, e, hrun⟩, hown⟩

/-- Contents are merged as the documents are that each of them has by itself. -/
theorem parseContents_agrees (h : ∀ content ∈ contents, IsContent located content)
    (hsome : ∃ content ∈ contents, ∃ d, Document.parse content located = .ok d)
    (together : Bool) :
    ∃ merged, (parseContents contents together).outcome.1 = .ok merged ∧
      merged.unlocated = (mergeDocuments (documentsOf contents located)).unlocated := by
  obtain ⟨d, hd, hds⟩ := parse_join h hsome together
  refine ⟨mergeDocuments [d], ?_, ?_⟩
  · obtain ⟨more, hmerge⟩ := endFrom_mergeWork [d] []
    rw [parseContents, Work.outcome_eq, Work.endFrom_bind, parseDocument, Work.endFrom_ofExcept, hd]
    exact congrArg Prod.fst hmerge
  · have hall : allDefinitions [d] = d.definitions := List.append_nil _
    simp only [mergeDocuments, Document.unlocated, hall]
    rw [← mergeDefinitions_unlocated, hds, mergeDefinitions_unlocated]

set_option maxRecDepth 4000 in
/-- Types without braces at the ends of their contents, comments between them, and a split type. -/
theorem parseContents_agrees_bare :
    let contents := ["enum E # the end\n", ", # nothing\n", "\"T\" type Query { a: E }\n",
      "type Query { b: E }\ntype T\n", "extend type T @d\n"]
    ((∀ content ∈ contents, IsContent true content) ∧
      ∃ content ∈ contents, ∃ d, Document.parse content true = .ok d) ∧
    ∃ merged, (parseContents contents false).outcome.1 = .ok merged ∧
      merged.unlocated = (mergeDocuments (documentsOf contents true)).unlocated := by
  intro contents
  have hall : contents.all (fun content => decide (IsContent true content)) = true := by cbv
  have hcontents : ∀ content ∈ contents, IsContent true content := fun content hm =>
    of_decide_eq_true (List.all_eq_true.mp hall content hm)
  have hsome : ∃ content ∈ contents, ∃ d, Document.parse content true = .ok d :=
    ⟨_, List.mem_cons_self .., isSome_toOption_iff.mp (by cbv)⟩
  exact ⟨⟨hcontents, hsome⟩, parseContents_agrees hcontents hsome false⟩

end Contents

end SchemaLoom
