import Mathlib.Data.List.TakeWhile
import SchemaLoom.Document.Lexer
import SchemaLoom.Proofs.Results

/-! What stands at the start of a text that ends with a line feed. It does not depend on the text
that follows: literals are closed within their own text, and all else ends at the line feed. -/

namespace SchemaLoom

def EndsLine (text : List Char) : Prop := text.getLast? = some '\n'

instance : DecidablePred EndsLine := fun text => inferInstanceAs (Decidable (text.getLast? = _))

namespace EndsLine

variable {text before : List Char} {c : Char}

theorem ne_nil (h : EndsLine text) : text ≠ [] := by
  rintro rfl
  simp [EndsLine] at h

theorem of_append (h : EndsLine (before ++ text)) (hne : text ≠ []) : EndsLine text := by
  rw [EndsLine, List.getLast?_append, List.getLast?_eq_some_getLast hne] at h
  rwa [EndsLine, List.getLast?_eq_some_getLast hne]

theorem of_cons (h : EndsLine (c :: text)) (hc : c ≠ '\n') : EndsLine text := by
  cases text with
  | nil => simp [EndsLine, hc] at h
  | cons d rest => exact of_append (show EndsLine ([c] ++ d :: rest) from h) (by simp)

theorem mem (h : EndsLine text) : '\n' ∈ text := List.mem_of_getLast? h

variable {p : Char → Bool}

theorem dropWhile_ne_nil (h : EndsLine text) (hp : p '\n' = false) : text.dropWhile p ≠ [] := by
  intro hnil
  simpa [hp] using List.dropWhile_eq_nil_iff.mp hnil '\n' h.mem

theorem dropWhile (h : EndsLine text) (hp : p '\n' = false) : EndsLine (text.dropWhile p) := by
  have hne := h.dropWhile_ne_nil hp
  rw [← List.takeWhile_append_dropWhile (p := p) (l := text)] at h
  exact h.of_append hne

theorem dropWhile_append (h : EndsLine text) (hp : p '\n' = false) (more : List Char) :
    (text ++ more).dropWhile p = text.dropWhile p ++ more := by
  rw [List.dropWhile_append, if_neg (by simpa using h.dropWhile_ne_nil hp)]

theorem takeWhile_append (h : EndsLine text) (hp : p '\n' = false) (more : List Char) :
    (text ++ more).takeWhile p = text.takeWhile p := by
  rw [List.takeWhile_append, if_neg]
  intro hlength
  have hsum := congrArg List.length (List.takeWhile_append_dropWhile (p := p) (l := text))
  rw [List.length_append, hlength] at hsum
  exact h.dropWhile_ne_nil hp (List.length_eq_zero_iff.mp (by omega))

end EndsLine

/-! ### String literals -/

theorem bracedEscape_append {sequence text : List Char} {point size : Nat} {result : Char × Nat}
    (h : bracedEscape sequence point size text = .ok result) (sequence' more : List Char) :
    bracedEscape sequence' point size (text ++ more) = .ok result ∧
      size < result.2 ∧ result.2 ≤ size + text.length := by
  induction text generalizing point size with
  | nil => simp [bracedEscape] at h
  | cons c rest ih =>
    rw [bracedEscape] at h
    rw [List.cons_append, bracedEscape]
    by_cases hc : c = '\x7d'
    · rw [if_pos hc] at h ⊢
      by_cases hs : size ≥ 4 ∧ isScalarValue point = true
      · rw [if_pos hs] at h ⊢
        obtain rfl := Except.ok.inj h
        exact ⟨rfl, by simp⟩
      · simp [hs] at h
    · rw [if_neg hc] at h ⊢
      cases hd : hexValue? c with
      | none => simp [hd] at h
      | some digit =>
        simp only [hd] at h ⊢
        obtain ⟨hmore, hlt, hle⟩ := ih h
        exact ⟨hmore, by omega, by simp only [List.length_cons]; omega⟩

theorem fourDigits?_append {text : List Char} {n : Nat} (h : fourDigits? text = some n)
    (more : List Char) : fourDigits? (text ++ more) = some n ∧ 4 ≤ text.length := by
  unfold fourDigits? at h ⊢
  by_cases hl : text.length < 4
  · simp [hl] at h
  · rw [if_neg hl] at h
    have hl' : ¬ (text ++ more).length < 4 := by rw [List.length_append]; omega
    rw [if_neg hl', List.take_append_of_le_length (by omega)]
    exact ⟨h, by omega⟩

theorem fixedEscape_append {text : List Char} {result : Char × Nat}
    (h : fixedEscape text = .ok result) (more : List Char) :
    fixedEscape (text ++ more) = .ok result ∧ 1 < result.2 ∧ result.2 ≤ text.length + 2 := by
  unfold fixedEscape at h ⊢
  cases hf : fourDigits? text with
  | none => simp [hf] at h
  | some code =>
    obtain ⟨hf', hl⟩ := fourDigits?_append hf more
    simp only [hf] at h
    simp only [hf']
    by_cases hs : isScalarValue code = true
    · rw [if_pos hs] at h ⊢
      obtain rfl := Except.ok.inj h
      exact ⟨rfl, by simp, by simp only; omega⟩
    rw [if_neg hs] at h ⊢
    by_cases hlead : isLeadingSurrogate code = true
    · rw [if_pos hlead] at h ⊢
      rw [List.drop_append_of_le_length hl]
      have hdrop : (text.drop 4).length + 4 = text.length := by rw [List.length_drop]; omega
      generalize text.drop 4 = tail at h hdrop ⊢
      split at h
      · next trailing =>
        cases ht : fourDigits? trailing with
        | none => simp [ht] at h
        | some trail =>
          obtain ⟨ht', hl'⟩ := fourDigits?_append ht more
          simp only [ht] at h
          simp only [List.cons_append, ht']
          by_cases htrail : isTrailingSurrogate trail = true
          · rw [if_pos htrail] at h ⊢
            obtain rfl := Except.ok.inj h
            simp only [List.length_cons] at hdrop
            exact ⟨rfl, by simp, by simp only; omega⟩
          · simp [htrail] at h
      · simp at h
    · simp [hlead] at h

theorem escape_cons {c : Char} (hc : c ≠ 'u') (rest : List Char) :
    escape (c :: rest) = match simpleEscape? c with
      | some e => .ok (e, 2)
      | none => .error (.badEscape (String.ofList ['\\', c])) :=
  escape.eq_4 c rest (fun _ h _ => hc h) hc

/-- An escape sequence that is read does not reach beyond its text. -/
theorem escape_append {text : List Char} {result : Char × Nat} (h : escape text = .ok result)
    (more : List Char) :
    escape (text ++ more) = .ok result ∧ 1 < result.2 ∧ result.2 ≤ text.length + 1 := by
  cases text with
  | nil => simp [escape] at h
  | cons c rest =>
    by_cases hu : c = 'u'
    · subst hu
      cases rest with
      | nil => simp [escape, fixedEscape, fourDigits?] at h
      | cons d rest =>
        by_cases hd : d = '\x7b'
        · subst hd
          have hb : bracedEscape ('\\' :: 'u' :: '\x7b' :: rest) 0 3 (rest.take 9) = .ok result := h
          obtain ⟨hmore, hlt, hle⟩ := bracedEscape_append hb
            ('\\' :: 'u' :: '\x7b' :: (rest ++ more)) (more.take (9 - rest.length))
          rw [← List.take_append] at hmore
          rw [List.length_take] at hle
          exact ⟨hmore, by omega, by simp only [List.length_cons]; omega⟩
        · have hf : fixedEscape (d :: rest) = .ok result := by
            rwa [escape] at h
            simpa using hd
          obtain ⟨hmore, hlt, hle⟩ := fixedEscape_append hf more
          refine ⟨?_, hlt, by simpa using hle⟩
          rw [List.cons_append, List.cons_append, escape]
          · exact hmore
          · simpa using hd
    · rw [List.cons_append, escape_cons hu]
      rw [escape_cons hu] at h
      cases he : simpleEscape? c with
      | none => simp [he] at h
      | some e =>
        simp only [he] at h ⊢
        obtain rfl := Except.ok.inj h
        exact ⟨rfl, by simp, by simp⟩

theorem StringScan.push_eq_ok {value text : List Char} {size : Nat} {scan : StringScan}
    (h : scan.push value = .ok (text, size)) :
    ∃ rest, scan = .ok (rest, size) ∧ text = value ++ rest := by
  cases scan with
  | error e => simp [push] at h
  | ok result =>
    obtain ⟨rest, own⟩ := result
    obtain ⟨rfl, rfl⟩ := Prod.mk.inj (Except.ok.inj h)
    exact ⟨rest, rfl, rfl⟩

/-- A string literal that ends within its text ends there whatever follows. -/
theorem stringBody_append {text value : List Char} {size stop : Nat}
    (h : stringBody size text = .ok (value, stop)) (more : List Char) :
    stringBody size (text ++ more) = .ok (value, stop) ∧
      size < stop ∧ stop ≤ size + text.length := by
  fun_induction stringBody size text generalizing value with
  | case1 => simp at h
  | case2 size rest =>
    obtain ⟨rfl, rfl⟩ := Prod.mk.inj (Except.ok.inj h)
    exact ⟨by simp [stringBody], by omega, by simp⟩
  | case3 => simp at h
  | case4 => simp at h
  | case5 size rest c length he hq hn ih =>
    obtain ⟨tail, hrest, rfl⟩ := StringScan.push_eq_ok h
    -- The escape is within this text, so the scan goes on in what is left of it.
    obtain ⟨he', hlt, hle⟩ := escape_append he more
    obtain ⟨hmore, hlt', hle'⟩ := ih hrest
    rw [List.length_drop] at hle'
    refine ⟨?_, by omega, by simp only [List.length_cons]; omega⟩
    rw [List.cons_append, stringBody, if_neg hq, if_neg hn, if_pos rfl, he']
    simp only
    rw [List.drop_append_of_le_length (by omega), hmore]
    rfl
  | case6 size c rest hq hn hb ih =>
    obtain ⟨tail, hrest, rfl⟩ := StringScan.push_eq_ok h
    obtain ⟨hmore, hlt, hle⟩ := ih hrest
    refine ⟨?_, by omega, by simp only [List.length_cons]; omega⟩
    rw [List.cons_append, stringBody, if_neg hq, if_neg hn, if_neg hb, hmore]
    rfl

/-- A block string that ends within its text has three quotes left, so that quotes of the text that
follows cannot end it before. -/
theorem blockBody_append {text value : List Char} {size stop : Nat}
    (h : blockBody size text = .ok (value, stop)) (more : List Char) :
    blockBody size (text ++ more) = .ok (value, stop) ∧
      size + 3 ≤ stop ∧ stop ≤ size + text.length := by
  fun_induction blockBody size text generalizing value with
  | case1 => simp at h
  | case2 size rest =>
    obtain ⟨rfl, rfl⟩ := Prod.mk.inj (Except.ok.inj h)
    exact ⟨by simp [blockBody], by omega, by simp⟩
  | case3 size rest ih =>
    obtain ⟨tail, hrest, rfl⟩ := StringScan.push_eq_ok h
    obtain ⟨hmore, hlt, hle⟩ := ih hrest
    refine ⟨?_, by omega, by simp only [List.length_cons]; omega⟩
    simp only [List.cons_append, blockBody, hmore]
    rfl
  | case4 size c rest hq hb ih =>
    obtain ⟨tail, hrest, rfl⟩ := StringScan.push_eq_ok h
    obtain ⟨hmore, hlt, hle⟩ := ih hrest
    refine ⟨?_, by omega, by simp only [List.length_cons]; omega⟩
    -- A quote or a backslash among the last three characters could become part of a mark that the
    -- text after it completes. The closing quotes leave no room for that.
    obtain ⟨x, y, z, left, rfl⟩ : ∃ x y z left, rest = x :: y :: z :: left := by
      match rest with
      | x :: y :: z :: left => exact ⟨x, y, z, left, rfl⟩
      | [] | [_] | [_, _] => simp only [List.length_cons, List.length_nil] at hle; omega
    rw [List.cons_append, blockBody, hmore]
    · rfl
    · intro tail' hc heq
      obtain ⟨rfl, rfl, -⟩ : x = '"' ∧ y = '"' ∧ z :: (left ++ more) = tail' := by simpa using heq
      exact hq (z :: left) hc rfl
    · intro tail' hc heq
      obtain ⟨rfl, rfl, rfl, -⟩ : x = '"' ∧ y = '"' ∧ z = '"' ∧ left ++ more = tail' := by
        simpa using heq
      exact hb left hc rfl

/-! ### Numbers -/

/-- A part of a number that ends within its line ends there whatever follows. -/
def StopsWithin (read : Nat → List Char → Except SyntaxError (Nat × List Char)) : Prop :=
  ∀ {size stop : Nat} {text rest : List Char}, EndsLine text → read size text = .ok (stop, rest) →
    (∀ more, read size (text ++ more) = .ok (stop, rest ++ more)) ∧ EndsLine rest ∧
      stop + rest.length = size + text.length

theorem digits_stopsWithin : StopsWithin digits := by
  intro size stop text rest ht h
  have hd : Char.isDigit '\n' = false := by decide
  have hlength := congrArg List.length
    (List.takeWhile_append_dropWhile (p := Char.isDigit) (l := text))
  rw [List.length_append] at hlength
  unfold digits at h ⊢
  cases hrun : text.takeWhile Char.isDigit with
  | nil => simp [hrun] at h
  | cons d run =>
    simp only [hrun] at h
    obtain ⟨rfl, rfl⟩ := Prod.mk.inj (Except.ok.inj h)
    rw [hrun] at hlength
    refine ⟨fun more => ?_, ht.dropWhile hd, by omega⟩
    rw [ht.takeWhile_append hd, ht.dropWhile_append hd, hrun]

theorem integerPart_stopsWithin : StopsWithin integerPart := by
  intro size stop text rest ht h
  cases text with
  | nil => exact absurd rfl ht.ne_nil
  | cons c tail =>
    by_cases hc : c = '0'
    · subst hc
      have htail := ht.of_cons (by decide)
      obtain ⟨d, left, rfl⟩ := List.exists_cons_of_ne_nil htail.ne_nil
      by_cases hd : d.isDigit = true
      · simp [integerPart, hd] at h
      · simp only [integerPart, List.head?_cons, hd, Bool.false_eq_true, if_false] at h
        obtain ⟨rfl, rfl⟩ := Prod.mk.inj (Except.ok.inj h)
        refine ⟨fun more => ?_, htail, by simp only [List.length_cons]; omega⟩
        simp [integerPart, hd]
    · have hdigits : ∀ more, integerPart size (c :: more) = digits size (c :: more) := by
        intro more
        rw [integerPart]
        simpa using hc
      rw [hdigits] at h
      have hstop := digits_stopsWithin ht h
      exact ⟨fun more => (hdigits _).trans (hstop.1 more), hstop.2⟩

theorem fractionPart_stopsWithin : StopsWithin fractionPart := by
  intro size stop text rest ht h
  cases text with
  | nil => exact absurd rfl ht.ne_nil
  | cons c tail =>
    by_cases hc : c = '.'
    · subst hc
      obtain ⟨hmore, hrest, hlength⟩ := digits_stopsWithin (ht.of_cons (by decide)) h
      exact ⟨hmore, hrest, by simp only [List.length_cons]; omega⟩
    · have hnone : ∀ more, fractionPart size (c :: more) = .ok (size, c :: more) := fun more => by
        rw [fractionPart]
        simpa using hc
      rw [hnone] at h
      obtain ⟨rfl, rfl⟩ := Prod.mk.inj (Except.ok.inj h)
      exact ⟨fun more => hnone _, ht, rfl⟩

theorem exponentPart_stopsWithin : StopsWithin exponentPart := by
  intro size stop text rest ht h
  cases text with
  | nil => exact absurd rfl ht.ne_nil
  | cons c tail =>
    by_cases hc : c = 'e' ∨ c = 'E'
    · have htail : EndsLine tail := ht.of_cons (by rcases hc with rfl | rfl <;> decide)
      obtain ⟨d, left, rfl⟩ := List.exists_cons_of_ne_nil htail.ne_nil
      by_cases hd : d = '+' ∨ d = '-'
      · have hsign : ∀ more, exponentPart size (c :: d :: more) = digits (size + 2) more := by
          intro more
          rcases hd with rfl | rfl <;> simp [exponentPart, hc]
        rw [hsign] at h
        have hleft := htail.of_cons (by rcases hd with rfl | rfl <;> decide)
        obtain ⟨hmore, hrest, hlength⟩ := digits_stopsWithin hleft h
        exact ⟨fun more => (hsign _).trans (hmore more), hrest,
          by simp only [List.length_cons]; omega⟩
      · have hplain : ∀ more,
            exponentPart size (c :: d :: more) = digits (size + 1) (d :: more) := by
          intro more
          have hplus : d ≠ '+' := fun he => hd (.inl he)
          have hminus : d ≠ '-' := fun he => hd (.inr he)
          simp [exponentPart, hc, hplus, hminus]
        rw [hplain] at h
        obtain ⟨hmore, hrest, hlength⟩ := digits_stopsWithin htail h
        exact ⟨fun more => (hplain _).trans (hmore more), hrest,
          by simp only [List.length_cons] at hlength ⊢; omega⟩
    · have hnone : ∀ more, exponentPart size (c :: more) = .ok (size, c :: more) := fun more => by
        simp [exponentPart, hc]
      rw [hnone] at h
      obtain ⟨rfl, rfl⟩ := Prod.mk.inj (Except.ok.inj h)
      exact ⟨fun more => hnone _, ht, rfl⟩

theorem numberEnd_append {text : List Char} (ht : EndsLine text) (size : Nat) (more : List Char) :
    numberEnd size (text ++ more) = numberEnd size text := by
  obtain ⟨c, tail, rfl⟩ := List.exists_cons_of_ne_nil ht.ne_nil
  rfl

theorem number_append {text : List Char} {lexeme : Lexeme} {size : Nat} (ht : EndsLine text)
    (h : number text = .ok (lexeme, size)) (more : List Char) :
    number (text ++ more) = .ok (lexeme, size) ∧ size ≤ text.length := by
  obtain ⟨signed, rest, hsign, hrest, hlength⟩ : ∃ signed rest,
      (∀ more, (if (text ++ more).head? = some '-' then (1, (text ++ more).drop 1)
        else (0, text ++ more)) = (signed, rest ++ more)) ∧ EndsLine rest ∧
      signed + rest.length = text.length := by
    obtain ⟨c, tail, rfl⟩ := List.exists_cons_of_ne_nil ht.ne_nil
    by_cases hc : c = '-'
    · subst hc
      exact ⟨1, tail, fun _ => rfl, ht.of_cons (by decide), Nat.add_comm _ _⟩
    · exact ⟨0, c :: tail, fun _ => by simp [hc], ht, Nat.zero_add _⟩
  have hsign' := hsign []
  simp only [List.append_nil] at hsign'
  unfold number at h ⊢
  rw [hsign'] at h
  rw [hsign]
  obtain ⟨⟨whole, rest₁⟩, hwhole, h⟩ := exists_of_bind_eq_ok h
  obtain ⟨⟨decimal, rest₂⟩, hdecimal, h⟩ := exists_of_bind_eq_ok h
  obtain ⟨⟨full, rest₃⟩, hfull, h⟩ := exists_of_bind_eq_ok h
  obtain ⟨⟨⟩, hnumber, h⟩ := exists_of_bind_eq_ok h
  obtain ⟨hmore₁, hend₁, hlength₁⟩ := integerPart_stopsWithin hrest hwhole
  obtain ⟨hmore₂, hend₂, hlength₂⟩ := fractionPart_stopsWithin hend₁ hdecimal
  obtain ⟨hmore₃, hend₃, hlength₃⟩ := exponentPart_stopsWithin hend₂ hfull
  obtain ⟨rfl, rfl⟩ := Prod.mk.inj (Except.ok.inj h)
  have hle : full ≤ text.length := by omega
  refine ⟨?_, hle⟩
  simp only [bind, Except.bind, hmore₁, hmore₂, hmore₃, numberEnd_append hend₃, hnumber,
    List.take_append_of_le_length hle]
  rfl

/-! ### Tokens -/

/-- How many characters belong to what a scan has found, besides the first one. -/
def Scan.more? : Scan → Option Nat
  | .ignored more => some more
  | .token _ more => some more
  | .fault _ => none

theorem exists_of_token_more? {lexeme : List Char → Lexeme} {scan : StringScan} {length : Nat}
    (h : (StringScan.token lexeme scan).more? = some length) :
    ∃ result, scan = .ok result ∧ result.2 - 1 = length := by
  cases scan with
  | error e => simp [StringScan.token, Scan.more?] at h
  | ok result => exact ⟨result, rfl, Option.some.inj h⟩

theorem scanString_append {text : List Char} {length : Nat} (ht : EndsLine text)
    (h : (scanString text).more? = some length) (more : List Char) :
    scanString (text ++ more) = scanString text ∧ length ≤ text.length := by
  obtain ⟨c, tail, rfl⟩ := List.exists_cons_of_ne_nil ht.ne_nil
  by_cases hblock : ∃ rest, c :: tail = '"' :: '"' :: rest
  · obtain ⟨rest, heq⟩ := hblock
    rw [heq] at h ⊢
    simp only [List.cons_append, scanString] at h ⊢
    obtain ⟨result, hb, rfl⟩ := exists_of_token_more? h
    obtain ⟨hmore, hlt, hle⟩ := blockBody_append hb more
    rw [hmore, hb]
    exact ⟨rfl, by simp only [List.length_cons]; omega⟩
  · have hplain : ∀ more, scanString (c :: tail ++ more) = StringScan.token
        (fun value => .string (String.ofList value)) (stringBody 1 (c :: tail ++ more)) := by
      intro more
      refine scanString.eq_2 (c :: tail ++ more) fun rest heq => ?_
      obtain ⟨rfl, htail⟩ := List.cons_eq_cons.mp heq
      obtain ⟨d, left, rfl⟩ := List.exists_cons_of_ne_nil (ht.of_cons (by decide)).ne_nil
      obtain ⟨rfl, -⟩ := List.cons_eq_cons.mp htail
      exact hblock ⟨left, rfl⟩
    have hplain' := hplain []
    rw [List.append_nil] at hplain'
    rw [hplain'] at h ⊢
    obtain ⟨result, hs, rfl⟩ := exists_of_token_more? h
    obtain ⟨hmore, hlt, hle⟩ := stringBody_append hs more
    rw [hplain, hmore, hs]
    exact ⟨rfl, by omega⟩

theorem scanNumber_append {c : Char} {text : List Char} {length : Nat} (ht : EndsLine (c :: text))
    (h : (scanNumber (c :: text)).more? = some length) (more : List Char) :
    scanNumber (c :: text ++ more) = scanNumber (c :: text) ∧ length ≤ text.length := by
  unfold scanNumber at h ⊢
  cases hn : number (c :: text) with
  | error e => simp [hn, Scan.more?] at h
  | ok result =>
    obtain ⟨hmore, hle⟩ := number_append ht hn more
    simp only [hn, Scan.more?, Option.some.injEq] at h
    simp only [List.length_cons] at hle
    exact ⟨by rw [hmore], by omega⟩

/-- What stands at the start of a text that ends with a line feed does not depend on what follows
the text. -/
theorem scan_append {c : Char} {text : List Char} {length : Nat} (ht : EndsLine (c :: text))
    (h : (scan c text).more? = some length) (more : List Char) :
    scan c (text ++ more) = scan c text ∧ length ≤ text.length := by
  unfold scan at h ⊢
  by_cases hi : isIgnored c = true
  · simp only [if_pos hi] at h ⊢
    obtain rfl : 0 = length := Option.some.inj h
    exact ⟨trivial, Nat.zero_le _⟩
  -- A line feed is ignored, so below the rest of the text still ends with one.
  have hc : c ≠ '\n' := by
    rintro rfl
    exact hi (by decide)
  have htext := ht.of_cons hc
  simp only [if_neg hi] at h ⊢
  by_cases hcomment : c = '#'
  · simp only [if_pos hcomment] at h ⊢
    rw [htext.takeWhile_append (by decide)]
    obtain rfl := Option.some.inj h
    exact ⟨rfl, (List.takeWhile_sublist _).length_le⟩
  simp only [if_neg hcomment] at h ⊢
  cases hp : punctuator? c with
  | some mark =>
    simp only [hp] at h
    obtain rfl : 0 = length := Option.some.inj h
    exact ⟨rfl, Nat.zero_le _⟩
  | none =>
    simp only [hp] at h ⊢
    by_cases hq : c = '"'
    · simp only [if_pos hq] at h ⊢
      exact scanString_append htext h more
    simp only [if_neg hq] at h ⊢
    by_cases hn : (c.isDigit || decide (c = '-')) = true
    · simp only [if_pos hn] at h ⊢
      exact scanNumber_append ht h more
    simp only [if_neg hn] at h ⊢
    by_cases hname : isNameStart c = true
    · simp only [if_pos hname] at h ⊢
      rw [htext.takeWhile_append (by decide)]
      obtain rfl := Option.some.inj h
      exact ⟨rfl, (List.takeWhile_sublist _).length_le⟩
    simp only [if_neg hname] at h ⊢
    by_cases hs : c = '.' ∧ text.take 2 = ['.', '.']
    · simp only [if_pos hs] at h ⊢
      obtain rfl : 2 = length := Option.some.inj h
      have hl : 2 ≤ text.length := by
        have hlength := congrArg List.length hs.2
        simp only [List.length_take, List.length_cons, List.length_nil] at hlength
        omega
      exact ⟨by rw [List.take_append_of_le_length hl, if_pos hs], hl⟩
    · rw [if_neg hs] at h
      by_cases ha : c = '\'' <;> simp [ha, Scan.more?] at h

end SchemaLoom
