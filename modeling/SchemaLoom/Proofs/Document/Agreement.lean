import SchemaLoom.Document.Parser
import SchemaLoom.Proofs.Document.Lexing

/-! Reading tokens of which more follow. A parser that succeeds on the tokens of a text makes the
same of them when the tokens of another text come after, if the first of those can only begin a
definition. -/

namespace SchemaLoom

/-- The lexemes that a definition can begin with, apart from an opening brace. -/
def Lexeme.beginsDefinition : Lexeme → Bool
  | .name word => (Parser.described? word).isSome || word = "extend"
  | .string _ => true
  | .blockString _ => true
  | _ => false

/-- The tokens of a text, how it ends when it stands alone, and the lexemes that follow when it does
not. -/
structure Continuation where
  tokens : List Token
  ending : Ending
  lexemes : List Lexeme
  begins : ∀ lexeme ∈ lexemes.head?, lexeme.beginsDefinition = true

namespace Continuation

variable {k : Continuation}

/-- Cursors that stand before the same lexemes of the text, the second one with the continuation
after them. The end of the tokens is the end of a text without faults. -/
structure Relates (k : Continuation) (c c' : Cursor) : Prop where
  suffix : c.tokens <:+ k.tokens
  lexemes : c'.tokens.map Token.lexeme = c.tokens.map Token.lexeme ++ k.lexemes
  ending : c.ending = k.ending
  finished : c.tokens = [] → k.ending.isFinished = true
  finished' : c'.ending.isFinished = true

/-- If the first parser succeeds at the first cursor, so does the second one at the second cursor,
with a related result. -/
def AgreesAt (k : Continuation) (R : α → β → Prop) (p : Parser α) (q : Parser β)
    (c c' : Cursor) : Prop :=
  ∀ ⦃a d⦄, p.run c = .ok (a, d) → ∃ b d', q.run c' = .ok (b, d') ∧ R a b ∧ k.Relates d d'

def Agrees (k : Continuation) (R : α → β → Prop) (p : Parser α) (q : Parser β) : Prop :=
  ∀ ⦃c c'⦄, k.Relates c c' → k.AgreesAt R p q c c'

/-- Agreement where there are tokens left. -/
def AgreesNext (k : Continuation) (R : α → β → Prop) (p : Parser α) (q : Parser β) : Prop :=
  ∀ ⦃c c'⦄, k.Relates c c' → c.tokens ≠ [] → k.AgreesAt R p q c c'

section Combinators

variable {R : α → β → Prop} {S : γ → δ → Prop} {p : Parser α} {q : Parser β}
  {f : α → Parser γ} {g : β → Parser δ}

theorem AgreesAt.bind {c c' : Cursor} (h : k.AgreesAt R p q c c')
    (hf : ∀ a b, R a b → k.Agrees S (f a) (g b)) : k.AgreesAt S (p >>= f) (q >>= g) c c' := by
  intro r d hrun
  rw [StateT.run_bind] at hrun
  obtain ⟨⟨a, e⟩, ha, hr⟩ := exists_of_bind_eq_ok hrun
  obtain ⟨b, e', hb, hab, hrel⟩ := h ha
  obtain ⟨r', d', hr', hS, hrel'⟩ := hf a b hab hrel hr
  refine ⟨r', d', ?_, hS, hrel'⟩
  rw [StateT.run_bind, hb]
  exact hr'

theorem Agrees.bind (h : k.Agrees R p q) (hf : ∀ a b, R a b → k.Agrees S (f a) (g b)) :
    k.Agrees S (p >>= f) (q >>= g) := fun _ _ hrel => (h hrel).bind hf

theorem AgreesNext.bind (h : k.AgreesNext R p q) (hf : ∀ a b, R a b → k.Agrees S (f a) (g b)) :
    k.AgreesNext S (p >>= f) (q >>= g) := fun _ _ hrel hne => (h hrel hne).bind hf

theorem Agrees.bindEq {p q : Parser α} {f : α → Parser γ} {g : α → Parser δ}
    (h : k.Agrees Eq p q) (hf : ∀ a, k.Agrees S (f a) (g a)) : k.Agrees S (p >>= f) (q >>= g) :=
  h.bind fun a _ heq => heq ▸ hf a

theorem Agrees.pure {a : α} {b : β} (h : R a b) : k.Agrees R (pure a) (pure b) := by
  intro c c' hrel r d hrun
  obtain ⟨rfl, rfl⟩ := Prod.mk.inj (Except.ok.inj hrun)
  exact ⟨b, c', rfl, h, hrel⟩

theorem Agrees.next (h : k.Agrees R p q) : k.AgreesNext R p q := fun _ _ hrel _ => h hrel

theorem Agrees.imp {R' : α → β → Prop} (h : k.Agrees R p q) (hR : ∀ a b, R a b → R' a b) :
    k.Agrees R' p q := by
  intro c c' hrel a d hrun
  obtain ⟨b, d', hb, hab, hrel'⟩ := h hrel hrun
  exact ⟨b, d', hb, hR a b hab, hrel'⟩

end Combinators

end Continuation

namespace Parser

def Fails (p : Parser α) : Prop := ∀ c a d, p.run c ≠ .ok (a, d)

/-- A parser that does not succeed where no tokens are left. -/
def NeedsToken (p : Parser α) : Prop := ∀ c a d, c.tokens = [] → p.run c ≠ .ok (a, d)

/-- A parser that finds nothing where no tokens are left, or fails. -/
def StaysAtEnd (p : Parser α) : Prop :=
  ∀ c a d, c.tokens = [] → p.run c = .ok (a, d) → d.tokens = []

variable {p : Parser α} {f : α → Parser β}

theorem fails_failAt (position : Nat) (fault : SyntaxFault) :
    Fails (failAt position fault : Parser α) := by
  intro c a d h
  cases h

theorem Fails.bind (h : Fails p) (f : α → Parser β) : Fails (p >>= f) := by
  intro c b d hrun
  rw [StateT.run_bind] at hrun
  obtain ⟨⟨a, e⟩, ha, -⟩ := exists_of_bind_eq_ok hrun
  exact h c a e ha

theorem Fails.of_bind (h : ∀ a, Fails (f a)) (p : Parser α) : Fails (p >>= f) := by
  intro c b d hrun
  rw [StateT.run_bind] at hrun
  obtain ⟨⟨a, e⟩, -, hb⟩ := exists_of_bind_eq_ok hrun
  exact h a e b d hb

theorem fails_unexpected : Fails (unexpected : Parser α) :=
  .of_bind (fun _ => .of_bind (fun _ => fails_failAt _ _) _) _

theorem fails_expected (what : String) : Fails (expected what : Parser α) :=
  .of_bind (fun _ => .of_bind (fun _ => fails_failAt _ _) _) _

theorem fails_tooDeep : Fails (tooDeep : Parser α) :=
  .of_bind (fun _ => fails_failAt _ _) _

theorem Fails.needsToken (h : Fails p) : NeedsToken p := fun c a d _ => h c a d

theorem NeedsToken.bind (h : NeedsToken p) (f : α → Parser β) : NeedsToken (p >>= f) := by
  intro c b d hc hrun
  rw [StateT.run_bind] at hrun
  obtain ⟨⟨a, e⟩, ha, -⟩ := exists_of_bind_eq_ok hrun
  exact h c a e hc ha

theorem StaysAtEnd.bind_needsToken (h : StaysAtEnd p) (hf : ∀ a, NeedsToken (f a)) :
    NeedsToken (p >>= f) := by
  intro c b d hc hrun
  rw [StateT.run_bind] at hrun
  obtain ⟨⟨a, e⟩, ha, hb⟩ := exists_of_bind_eq_ok hrun
  exact hf a e b d (h c a e hc ha) hb

theorem staysAtEnd_pure (a : α) : StaysAtEnd (pure a) := by
  intro c b d hc h
  obtain ⟨-, rfl⟩ := Prod.mk.inj (Except.ok.inj h)
  exact hc

theorem peekLexeme_bind_run (f : Option Lexeme → Parser β) (c : Cursor) :
    (peekLexeme >>= f).run c = (f (c.tokens.head?.map Token.lexeme)).run c := rfl

theorem position_bind_run (f : Nat → Parser β) (c : Cursor) :
    (position >>= f).run c =
      (f ((c.tokens.head?.map Token.start).getD (endPosition c.ending))).run c := rfl

theorem checkEnding_eq_ok_iff {tokens : List Token} {ending : Ending} :
    checkEnding tokens ending = .ok () ↔ (tokens = [] → ending.isFinished = true) := by
  cases tokens <;> cases ending <;> simp [checkEnding, Ending.isFinished]

theorem advance_run {c : Cursor} {t : Token} {rest : List Token} (h : c.tokens = t :: rest) :
    advance.run c = (checkEnding rest c.ending).map fun _ =>
      ((), { c with tokens := rest, previous := t.stop }) := by
  obtain ⟨tokens, ending, previous, body⟩ := c
  obtain rfl : tokens = t :: rest := h
  cases hcheck : checkEnding rest ending with
  | ok _ => simp [advance, hcheck]; rfl
  | error e => simp [advance, hcheck]; rfl

theorem peekSecond_run (c : Cursor) :
    peekSecond.run c = (checkEnding (c.tokens.drop 1) c.ending).map fun _ =>
      ((c.tokens.drop 1).head?, c) := by
  simp [peekSecond]
  rfl

theorem advance_run_end {c : Cursor} (h : c.tokens = []) : advance.run c = .ok ((), c) := by
  obtain ⟨tokens, ending, previous, body⟩ := c
  obtain rfl : tokens = [] := h
  rfl

theorem skip?_run_end {c : Cursor} (h : c.tokens = []) (lexeme : Lexeme) :
    (skip? lexeme).run c = .ok (false, c) := by
  rw [skip?, peekLexeme_bind_run, h]
  rfl

theorem needsToken_peekLexeme_bind {f : Option Lexeme → Parser β} (h : NeedsToken (f none)) :
    NeedsToken (peekLexeme >>= f) := by
  intro c b d hc hrun
  rw [peekLexeme_bind_run, hc] at hrun
  exact h c b d hc hrun

theorem needsToken_keyword (word : String) : NeedsToken (keyword word) := by
  intro c a d hc hrun
  rw [keyword, StateT.run_bind, keyword?, skip?_run_end hc] at hrun
  exact fails_expected _ c a d hrun

theorem needsToken_mark (m : Punctuator) : NeedsToken (mark m) := by
  intro c a d hc hrun
  rw [mark, StateT.run_bind, mark?, skip?_run_end hc] at hrun
  exact fails_expected _ c a d hrun

theorem needsToken_name : NeedsToken name :=
  needsToken_peekLexeme_bind (fails_expected _).needsToken

end Parser

namespace Continuation

open SchemaLoom.Parser

variable {k : Continuation}

namespace Relates

variable {c c' : Cursor}

/-- Where the text has a token left, the same one comes next at both cursors. -/
theorem exists_next (h : k.Relates c c') (hne : c.tokens ≠ []) :
    ∃ t rest t' rest', c.tokens = t :: rest ∧ c'.tokens = t' :: rest' ∧ t'.lexeme = t.lexeme ∧
      rest'.map Token.lexeme = rest.map Token.lexeme ++ k.lexemes := by
  have hl := h.lexemes
  obtain ⟨t, rest, hc⟩ := List.exists_cons_of_ne_nil hne
  cases hc' : c'.tokens with
  | nil => simp [hc, hc'] at hl
  | cons t' rest' =>
    rw [hc, hc', List.map_cons, List.map_cons, List.cons_append] at hl
    exact ⟨t, rest, t', rest', hc, rfl, (List.cons_eq_cons.mp hl).1, (List.cons_eq_cons.mp hl).2⟩

theorem lexeme_end (h : k.Relates c c') (hnil : c.tokens = []) :
    c'.tokens.head?.map Token.lexeme = k.lexemes.head? := by
  have hl := h.lexemes
  rw [hnil, List.map_nil, List.nil_append] at hl
  rw [← hl, List.head?_map]

end Relates

theorem agreesNext_advance : k.AgreesNext Eq advance advance := by
  intro c c' hrel hne a d hrun
  obtain ⟨t, rest, t', rest', hc, hc', -, hrest⟩ := hrel.exists_next hne
  rw [advance_run hc] at hrun
  cases hcheck : checkEnding rest c.ending with
  | error e => simp [hcheck, Except.map] at hrun
  | ok _ =>
    simp only [hcheck, Except.map, Except.ok.injEq, Prod.mk.injEq] at hrun
    obtain ⟨-, rfl⟩ := hrun
    have hend := hrel.ending ▸ checkEnding_eq_ok_iff.mp hcheck
    have hcheck' : checkEnding rest' c'.ending = .ok () :=
      checkEnding_eq_ok_iff.mpr fun _ => hrel.finished'
    refine ⟨(), { c' with tokens := rest', previous := t'.stop }, ?_, rfl,
      ⟨(hc ▸ List.suffix_cons t rest).trans hrel.suffix, hrest, hrel.ending, hend,
        hrel.finished'⟩⟩
    rw [advance_run hc', hcheck']
    rfl

section Parsers

variable {S : γ → δ → Prop}

theorem agrees_of_fails {p : Parser γ} (h : Fails p) (q : Parser δ) : k.Agrees S p q :=
  fun c _ _ a d hrun => absurd hrun (h c a d)

theorem AgreesNext.agrees {p : Parser γ} {q : Parser δ} (h : k.AgreesNext S p q)
    (hp : NeedsToken p) : k.Agrees S p q := by
  intro c c' hrel a d hrun
  exact h hrel (fun hc => hp c a d hc hrun) hrun

theorem agreesNext_peekLexeme_bind {f : Option Lexeme → Parser γ} {g : Option Lexeme → Parser δ}
    (h : ∀ lexeme, k.AgreesNext S (f (some lexeme)) (g (some lexeme))) :
    k.AgreesNext S (peekLexeme >>= f) (peekLexeme >>= g) := by
  intro c c' hrel hne a d hrun
  obtain ⟨t, rest, t', rest', hc, hc', hl, -⟩ := hrel.exists_next hne
  rw [peekLexeme_bind_run, hc] at hrun
  rw [peekLexeme_bind_run, hc', List.head?_cons, Option.map_some, hl]
  exact h t.lexeme hrel hne hrun

/-- Where the tokens of the text are at an end, what follows comes to light. -/
theorem agrees_peekLexeme_bind {f : Option Lexeme → Parser γ} {g : Option Lexeme → Parser δ}
    (h : ∀ lexeme, k.AgreesNext S (f (some lexeme)) (g (some lexeme)))
    (hend : k.Agrees S (f none) (g k.lexemes.head?)) :
    k.Agrees S (peekLexeme >>= f) (peekLexeme >>= g) := by
  intro c c' hrel a d hrun
  by_cases hne : c.tokens = []
  · rw [peekLexeme_bind_run, hne] at hrun
    rw [peekLexeme_bind_run, hrel.lexeme_end hne]
    exact hend hrel hrun
  · exact agreesNext_peekLexeme_bind h hrel hne hrun

theorem agrees_position : k.Agrees (fun _ _ => True) position position := by
  intro c c' hrel a d hrun
  obtain ⟨-, rfl⟩ := Prod.mk.inj (Except.ok.inj hrun)
  exact ⟨_, c', rfl, trivial, hrel⟩

theorem agrees_locate (start start' : Nat) :
    k.Agrees (fun _ _ => True) (locate start) (locate start') := by
  intro c c' hrel a d hrun
  obtain ⟨-, rfl⟩ := Prod.mk.inj (Except.ok.inj hrun)
  exact ⟨_, c', rfl, trivial, hrel⟩

theorem agrees_tokensLeft : k.Agrees (· ≤ ·) tokensLeft tokensLeft := by
  intro c c' hrel a d hrun
  obtain ⟨rfl, rfl⟩ := Prod.mk.inj (Except.ok.inj hrun)
  refine ⟨c'.tokens.length, c', rfl, ?_, hrel⟩
  have hlength := congrArg List.length hrel.lexemes
  simp only [List.length_append, List.length_map] at hlength
  omega

theorem head?_ne_of_not_begins {lexeme : Lexeme} (h : lexeme.beginsDefinition = false) :
    k.lexemes.head? ≠ some lexeme := by
  intro hhead
  have hbegins := k.begins lexeme hhead
  simp [h] at hbegins

theorem agreesNext_skip? (lexeme : Lexeme) : k.AgreesNext Eq (skip? lexeme) (skip? lexeme) := by
  refine agreesNext_peekLexeme_bind fun found => ?_
  by_cases hf : some found = some lexeme
  · simp only [if_pos hf]
    exact agreesNext_advance.bind fun _ _ _ => .pure rfl
  · simp only [if_neg hf]
    exact (Agrees.pure rfl).next

/-- What follows the text is not taken for a part of it. -/
theorem agrees_skip? {lexeme : Lexeme} (h : lexeme.beginsDefinition = false) :
    k.Agrees Eq (skip? lexeme) (skip? lexeme) := by
  intro c c' hrel
  by_cases hne : c.tokens = []
  · intro a d hrun
    rw [skip?_run_end hne] at hrun
    obtain ⟨rfl, rfl⟩ := Prod.mk.inj (Except.ok.inj hrun)
    refine ⟨false, c', ?_, rfl, hrel⟩
    have hhead := head?_ne_of_not_begins (k := k) h
    rw [skip?, peekLexeme_bind_run, hrel.lexeme_end hne, if_neg hhead]
    rfl
  · exact agreesNext_skip? lexeme hrel hne

theorem agrees_mark? (mark : Punctuator) : k.Agrees Eq (mark? mark) (mark? mark) :=
  agrees_skip? rfl

theorem agrees_keyword? {word : String} (h : (Lexeme.name word).beginsDefinition = false) :
    k.Agrees Eq (keyword? word) (keyword? word) :=
  agrees_skip? h

theorem agrees_at? (mark : Punctuator) : k.Agrees Eq (at? mark) (at? mark) := by
  refine agrees_peekLexeme_bind (fun found => (Agrees.pure rfl).next) (Agrees.pure ?_)
  have hne : k.lexemes.head? ≠ some (.punctuator mark) := head?_ne_of_not_begins rfl
  simp [hne]

theorem agrees_mark (m : Punctuator) : k.Agrees Eq (mark m) (mark m) := by
  refine (agrees_mark? m).bindEq fun found => ?_
  cases found with
  | true => exact .pure rfl
  | false => exact agrees_of_fails (fails_expected _) _

theorem agrees_keyword (word : String) : k.Agrees Eq (keyword word) (keyword word) := by
  refine AgreesNext.agrees ((agreesNext_skip? _).bind ?_) (needsToken_keyword word)
  rintro found _ rfl
  cases found with
  | true => exact .pure rfl
  | false => exact agrees_of_fails (fails_expected _) _

theorem agrees_name : k.Agrees Eq name name := by
  refine AgreesNext.agrees (agreesNext_peekLexeme_bind fun lexeme => ?_) needsToken_name
  cases lexeme with
  | name text => exact agreesNext_advance.bind fun _ _ _ => .pure rfl
  | _ => exact (agrees_of_fails (fails_expected _) _).next

/-! ### Lists of items -/

/-- Results that are the same up to what is left out of them. -/
abbrev SameUpTo (e : α → ε) (a b : α) : Prop := e a = e b

variable {item item' : Parser α} {rest rest' : Parser (List α)} {e : α → ε}

theorem agrees_cons (h : k.Agrees (SameUpTo e) item item')
    (hrest : k.Agrees (SameUpTo (List.map e)) rest rest') :
    k.Agrees (SameUpTo (List.map e)) (do let x ← item; return x :: (← rest))
      (do let x ← item'; return x :: (← rest')) :=
  h.bind fun _ _ hx => hrest.bind fun _ _ hxs => .pure (congrArg₂ List.cons hx hxs)

theorem agrees_itemsUntil (close : Punctuator) (h : k.Agrees (SameUpTo e) item item')
    {n m : Nat} (hnm : n ≤ m) : k.Agrees (SameUpTo (List.map e))
      (itemsUntil close item n) (itemsUntil close item' m) := by
  -- The bounds are the numbers of tokens left, of which the continuation has more.
  induction n generalizing m with
  | zero => exact agrees_of_fails fails_unexpected _
  | succ n ih =>
    obtain ⟨m, rfl⟩ : ∃ own, m = own + 1 := ⟨m - 1, by omega⟩
    refine (agrees_mark? close).bindEq fun closed => ?_
    cases closed with
    | true => exact .pure rfl
    | false => exact agrees_cons h (ih (Nat.le_of_succ_le_succ hnm))

theorem agrees_itemsAfter (separator : Punctuator) (h : k.Agrees (SameUpTo e) item item')
    {n m : Nat} (hnm : n ≤ m) : k.Agrees (SameUpTo (List.map e))
      (itemsAfter separator item n) (itemsAfter separator item' m) := by
  induction n generalizing m with
  | zero => exact agrees_of_fails fails_unexpected _
  | succ n ih =>
    obtain ⟨m, rfl⟩ : ∃ own, m = own + 1 := ⟨m - 1, by omega⟩
    refine (agrees_mark? separator).bindEq fun found => ?_
    cases found with
    | true => exact agrees_cons h (ih (Nat.le_of_succ_le_succ hnm))
    | false => exact .pure rfl

theorem agrees_itemsWhile (announcing : Punctuator) (h : k.Agrees (SameUpTo e) item item')
    {n m : Nat} (hnm : n ≤ m) : k.Agrees (SameUpTo (List.map e))
      (itemsWhile announcing item n) (itemsWhile announcing item' m) := by
  induction n generalizing m with
  | zero => exact agrees_of_fails fails_unexpected _
  | succ n ih =>
    obtain ⟨m, rfl⟩ : ∃ own, m = own + 1 := ⟨m - 1, by omega⟩
    refine (agrees_at? announcing).bindEq fun found => ?_
    cases found with
    | true => exact agrees_cons h (ih (Nat.le_of_succ_le_succ hnm))
    | false => exact .pure rfl

theorem agrees_anyBetween (opening close : Punctuator) (h : k.Agrees (SameUpTo e) item item') :
    k.Agrees (SameUpTo (List.map e))
      (anyBetween opening close item) (anyBetween opening close item') := by
  refine (agrees_mark opening).bindEq fun _ => ?_
  refine agrees_tokensLeft.bind fun n m hnm => ?_
  exact agrees_itemsUntil close h (Nat.succ_le_succ hnm)

theorem agrees_manyBetween (opening close : Punctuator) (h : k.Agrees (SameUpTo e) item item') :
    k.Agrees (SameUpTo (List.map e))
      (manyBetween opening close item) (manyBetween opening close item') := by
  refine (agrees_mark opening).bindEq fun _ => ?_
  refine h.bind fun _ _ hx => agrees_tokensLeft.bind fun n m hnm => ?_
  refine (agrees_itemsUntil close h (Nat.succ_le_succ hnm)).bind fun _ _ hxs => ?_
  exact .pure (congrArg₂ List.cons hx hxs)

theorem agrees_optionalBetween (opening close : Punctuator)
    (h : k.Agrees (SameUpTo e) item item') :
    k.Agrees (SameUpTo (List.map e))
      (optionalBetween opening close item) (optionalBetween opening close item') := by
  refine (agrees_at? opening).bindEq fun found => ?_
  cases found with
  | true => exact agrees_manyBetween opening close h
  | false => exact .pure rfl

theorem agrees_separated (separator : Punctuator) (h : k.Agrees (SameUpTo e) item item') :
    k.Agrees (SameUpTo (List.map e)) (separated separator item) (separated separator item') := by
  refine (agrees_mark? separator).bindEq fun _ => ?_
  refine h.bind fun _ _ hx => agrees_tokensLeft.bind fun n m hnm => ?_
  refine (agrees_itemsAfter separator h (Nat.succ_le_succ hnm)).bind fun _ _ hxs => ?_
  exact .pure (congrArg₂ List.cons hx hxs)

theorem Agrees.items_eq {p q : Parser (List α)} (h : k.Agrees (SameUpTo (List.map id)) p q) :
    k.Agrees Eq p q :=
  h.imp fun _ _ heq => by simpa [SameUpTo] using heq

end Parsers

end Continuation

end SchemaLoom
