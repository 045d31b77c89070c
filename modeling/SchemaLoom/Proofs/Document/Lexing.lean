import SchemaLoom.Proofs.Document.Scanning

/-! The lexemes of a text. Those of texts that end with line feeds can be put one after the other,
and a text of ignored characters and comments has none. -/

namespace SchemaLoom

def Ending.isFinished : Ending → Bool
  | .finished _ => true
  | .faulty _ => false

/-- A text without faults, with its lexemes. They do not depend on the position of the text. -/
def LexesTo (text : List Char) (lexemes : List Lexeme) : Prop :=
  ∀ position, (lexFrom position text).tokens.map Token.lexeme = lexemes ∧
    (lexFrom position text).ending.isFinished = true

theorem lexFrom_ignored {c : Char} {rest : List Char} {more : Nat}
    (h : scan c rest = .ignored more) (position : Nat) :
    lexFrom position (c :: rest) = lexFrom (position + (1 + more)) (rest.drop more) := by
  rw [lexFrom, h]

theorem lexFrom_token {c : Char} {rest : List Char} {lexeme : Lexeme} {more : Nat}
    (h : scan c rest = .token lexeme more) (position : Nat) :
    lexFrom position (c :: rest) = (lexFrom (position + (1 + more)) (rest.drop more)).cons
      ⟨lexeme, position, position + (1 + more)⟩ := by
  rw [lexFrom, h]

theorem lexesTo_nil : LexesTo [] [] := fun position => by simp [lexFrom, Ending.isFinished]

theorem lexesTo_of_finished {position : Nat} {text : List Char}
    (h : (lexFrom position text).ending.isFinished = true) :
    LexesTo text ((lexFrom position text).tokens.map Token.lexeme) := by
  fun_induction lexFrom position text with
  | case1 => exact lexesTo_nil
  | case2 position c rest more hs ih =>
    intro other
    rw [lexFrom_ignored hs]
    exact ih h _
  | case3 position c rest lexeme more hs stop ih =>
    intro other
    rw [lexFrom_token hs]
    obtain ⟨htokens, hending⟩ := ih h (other + (1 + more))
    exact ⟨congrArg (lexeme :: ·) htokens, hending⟩
  | case4 => simp [Ending.isFinished] at h

theorem EndsLine.drop {text : List Char} (ht : EndsLine text) (n : Nat) :
    text.drop n = [] ∨ EndsLine (text.drop n) := by
  by_cases hn : text.drop n = []
  · exact .inl hn
  · rw [← List.take_append_drop n text] at ht
    exact .inr (ht.of_append hn)

/-- The tokens of a text that ends with a line feed, and those of the text after it. -/
theorem lexFrom_append {position : Nat} {text : List Char} (ht : text = [] ∨ EndsLine text)
    (h : (lexFrom position text).ending.isFinished = true) (more : List Char) :
    lexFrom position (text ++ more) =
      ⟨(lexFrom position text).tokens ++ (lexFrom (position + text.length) more).tokens,
        (lexFrom (position + text.length) more).ending⟩ := by
  fun_induction lexFrom position text with
  | case1 => rfl
  | case2 position c rest length hs ih =>
    have hends : EndsLine (c :: rest) := ht.resolve_left (List.cons_ne_nil c rest)
    obtain ⟨hmore, hle⟩ := scan_append hends (congrArg Scan.more? hs) more
    -- What stands at the start is of this text alone, and so is where the scan goes on.
    have hnext := ih (hends.drop (length + 1)) h
    have hstop : position + (1 + length) + (rest.drop length).length =
        position + (c :: rest).length := by
      simp only [List.length_drop, List.length_cons]
      omega
    rw [List.cons_append, lexFrom_ignored (hmore.trans hs), List.drop_append_of_le_length hle,
      hnext, hstop]
  | case3 position c rest lexeme length hs stop ih =>
    have hends : EndsLine (c :: rest) := ht.resolve_left (List.cons_ne_nil c rest)
    obtain ⟨hmore, hle⟩ := scan_append hends (congrArg Scan.more? hs) more
    have hnext := ih (hends.drop (length + 1)) h
    have hstop : stop + (rest.drop length).length = position + (c :: rest).length := by
      simp only [List.length_drop, List.length_cons, stop]
      omega
    rw [List.cons_append, lexFrom_token (hmore.trans hs), List.drop_append_of_le_length hle,
      hnext, hstop]
    rfl
  | case4 => simp [Ending.isFinished] at h

theorem LexesTo.append {text more : List Char} {lexemes others : List Lexeme}
    (h : LexesTo text lexemes) (ht : text = [] ∨ EndsLine text) (hm : LexesTo more others) :
    LexesTo (text ++ more) (lexemes ++ others) := by
  intro position
  obtain ⟨htokens, hending⟩ := h position
  obtain ⟨hmore, hmoreEnding⟩ := hm (position + text.length)
  rw [lexFrom_append ht hending, List.map_append, htokens, hmore]
  exact ⟨rfl, hmoreEnding⟩

/-- Whether a text has ignored characters and comments only. -/
def isBlank : List Char → Bool
  | [] => true
  | c :: rest =>
    if c = '#' then isBlank (rest.dropWhile (!isNewline ·)) else isIgnored c && isBlank rest
termination_by text => text.length
decreasing_by
  · exact Nat.lt_succ_of_le (List.dropWhile_sublist _).length_le
  · simp

theorem lexesTo_of_isBlank {text : List Char} (h : isBlank text = true) : LexesTo text [] := by
  fun_induction isBlank text with
  | case1 => exact lexesTo_nil
  | case2 rest ih =>
    intro position
    have hs : scan '#' rest = .ignored (rest.takeWhile (!isNewline ·)).length := rfl
    have hrest : rest.drop (rest.takeWhile (!isNewline ·)).length = rest.dropWhile (!isNewline ·) :=
      calc
        _ = (rest.takeWhile (!isNewline ·) ++ rest.dropWhile (!isNewline ·)).drop
            (rest.takeWhile (!isNewline ·)).length := by rw [List.takeWhile_append_dropWhile]
        _ = rest.dropWhile (!isNewline ·) := List.drop_left
    rw [lexFrom_ignored hs, hrest]
    exact ih h _
  | case3 c rest hc ih =>
    have hi := Bool.and_eq_true_iff.mp h
    intro position
    rw [lexFrom_ignored (if_pos hi.1)]
    exact ih hi.2 _

end SchemaLoom
