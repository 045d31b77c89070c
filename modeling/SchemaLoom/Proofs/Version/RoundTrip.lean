import SchemaLoom.Proofs.Version.Grammar

/-! Versions that are written and read again. What is read from a text, whatever scripts its digits
are of, can be written, and what is written is read as the same version. -/

namespace SchemaLoom

namespace Version

/-- A number that is not negative and has no more digits than may be written. -/
structure IsNumber (n : Int) : Prop where
  nonneg : 0 ≤ n
  short : (toString n).length ≤ maxDigits

/-- Versions whose texts are read as the same versions. -/
structure IsWritable (v : Version) : Prop where
  major : IsNumber v.major
  minor : IsNumber v.minor
  micro : IsNumber v.micro
  level : v.level ∈ ["alpha", "beta", "candidate", "final"]
  serial : IsNumber v.serial
  final : v.level = "final" → v.serial = 0

/-- The decimal notation of a number that is not negative. -/
def digits (n : Int) : List Char := Nat.toDigits 10 n.toNat

/-- A text of a version in plain digits, which is written again for what is read from it. -/
structure IsCanonical (text : String) (v : Version) : Prop where
  ascii : ∀ c ∈ text.toList, c.isDigit = true ∨ c ∈ ['.', 'a', 'b', 'r', 'c']
  spelled : spelling? text.toList =
    some ⟨digits v.major, digits v.minor, digits v.micro, v.level, digits v.serial⟩
  parsed : ofText text = .ok v
  reproduced : (ofText text).map toText = .ok text

section Numbers

variable {n : Int}

theorem toList_toString (h : 0 ≤ n) : (toString n).toList = digits n := by
  obtain ⟨n, rfl⟩ := Int.eq_ofNat_of_zero_le h
  exact Nat.toList_repr

theorem isDigit_of_mem_digits {c : Char} (h : c ∈ digits n) : c.isDigit = true :=
  isDigit_of_mem_toDigits h

theorem digits_ne_nil : digits n ≠ [] := Nat.toDigits_ne_nil

theorem isNumber_iff : IsNumber n ↔ 0 ≤ n ∧ (digits n).length ≤ maxDigits := by
  constructor
  · rintro ⟨hn, hshort⟩
    rw [← String.length_toList, toList_toString hn] at hshort
    exact ⟨hn, hshort⟩
  · rintro ⟨hn, hshort⟩
    rw [← toList_toString hn, String.length_toList] at hshort
    exact ⟨hn, hshort⟩

theorem number_digits (h : IsNumber n) : number (digits n) = .ok n := by
  obtain ⟨hn, hshort⟩ := isNumber_iff.mp h
  rw [number, if_pos hshort, digits, decimalValue_toDigits, Int.toNat_of_nonneg hn]

/-- A number that is read in whatever scripts needs no more digits to be written. -/
theorem isNumber_of_numeral {run : List Char} {value : Nat} (h : Numeral run value)
    (hshort : run.length ≤ maxDigits) : IsNumber value := by
  have hsmall : value < 10 ^ maxDigits := by
    rw [← (numeral_iff.mp h).2]
    exact Nat.lt_of_lt_of_le (decimalValue_lt run) (Nat.pow_le_pow_right (by decide) hshort)
  refine isNumber_iff.mpr ⟨Int.natCast_nonneg _, ?_⟩
  exact (Nat.length_toDigits_le_iff (by decide) (by decide)).mpr hsmall

theorem isRun_digits (n : Int) : IsRun (digits n) :=
  ⟨fun _ hc => isDecimal_of_isDigit (isDigit_of_mem_digits hc), digits_ne_nil⟩

end Numbers

theorem isWritable_of_ofText {text : String} {v : Version} (h : ofText text = .ok v) :
    v.IsWritable := by
  obtain ⟨⟨hs, hmajor, hminor, hmicro, hserial⟩, hshort⟩ := ofText_eq_ok_iff.mp h
  have hlengths := hs.hasShortRuns_iff.mp hshort
  simp only [Spelling.runs, List.forall_mem_cons] at hlengths
  obtain ⟨hmajor', hminor', hmicro', hserial', -⟩ := hlengths
  obtain ⟨hlevel, hfinal⟩ := hs.level_cases
  refine ⟨isNumber_of_numeral hmajor hmajor', isNumber_of_numeral hminor hminor',
    isNumber_of_numeral hmicro hmicro', hlevel, isNumber_of_numeral hserial hserial', fun hv => ?_⟩
  rw [hfinal hv] at hserial
  have hzero := (numeral_iff.mp hserial).2
  rw [← hzero]
  rfl

section Writing

variable {v : Version}

/-- What is written behind the three numbers of a version. -/
def ending (v : Version) : List Char :=
  if v.level = "final" then [] else (stageLetters v.level).toList ++ digits v.serial

theorem toList_toText (h : v.IsWritable) :
    v.toText.toList =
      digits v.major ++ '.' :: (digits v.minor ++ '.' :: (digits v.micro ++ v.ending)) := by
  have hdot : ".".toList = ['.'] := rfl
  have hnumbers : (toString v.major ++ "." ++ toString v.minor ++ "." ++ toString v.micro).toList =
      digits v.major ++ '.' :: (digits v.minor ++ '.' :: digits v.micro) := by
    simp only [String.toList_append, toList_toString h.major.nonneg, toList_toString h.minor.nonneg,
      toList_toString h.micro.nonneg, hdot, List.append_assoc, List.cons_append, List.nil_append]
  unfold toText ending
  dsimp only
  by_cases hfinal : v.level = "final"
  · rw [if_pos (by simpa using hfinal), if_pos hfinal, hnumbers, List.append_nil]
  · rw [if_neg (by simpa using hfinal), if_neg hfinal, String.toList_append, String.toList_append,
      hnumbers, toList_toString h.serial.nonneg]
    simp only [List.append_assoc, List.cons_append]

theorem suffix_stageLetters {level : String} {serial : List Char}
    (h : level ∈ ["alpha", "beta", "candidate"]) (hserial : IsRun serial) :
    Suffix ((stageLetters level).toList ++ serial) level serial := by
  simp only [List.mem_cons, List.not_mem_nil, or_false] at h
  rcases h with rfl | rfl | rfl
  · exact .alpha hserial
  · exact .beta hserial
  · exact .candidate hserial

theorem level_of_not_final (h : v.IsWritable) (hfinal : v.level ≠ "final") :
    v.level ∈ ["alpha", "beta", "candidate"] := by
  have hlevel := h.level
  simpa [hfinal] using hlevel

theorem suffix_ending (h : v.IsWritable) : Suffix v.ending v.level (digits v.serial) := by
  by_cases hfinal : v.level = "final"
  · rw [ending, if_pos hfinal, hfinal, h.final hfinal]
    exact .final
  · rw [ending, if_neg hfinal]
    exact suffix_stageLetters (level_of_not_final h hfinal) (isRun_digits v.serial)

theorem spelling?_toText (h : v.IsWritable) :
    spelling? v.toText.toList =
      some ⟨digits v.major, digits v.minor, digits v.micro, v.level, digits v.serial⟩ := by
  have hspells := Spells.intro (isRun_digits v.major) (isRun_digits v.minor) (isRun_digits v.micro)
    (suffix_ending h) List.mem_cons_self
  rw [List.append_nil, ← toList_toText h] at hspells
  exact spelling?_eq_some_iff.mpr hspells

theorem ofText_toText_of_isWritable (h : v.IsWritable) : ofText v.toText = .ok v := by
  rw [ofText, spelling?_toText h]
  simp only [number_digits h.major, number_digits h.minor, number_digits h.micro,
    number_digits h.serial]
  rfl

theorem ascii_toText (h : v.IsWritable) :
    ∀ c ∈ v.toText.toList, c.isDigit = true ∨ c ∈ ['.', 'a', 'b', 'r', 'c'] := by
  have hending : ∀ c ∈ v.ending, c.isDigit = true ∨ c ∈ ['.', 'a', 'b', 'r', 'c'] := by
    intro c hc
    rcases (suffix_ending h).mem_cases hc with hletter | hdigit
    · exact .inr (List.mem_cons_of_mem _ hletter)
    · exact .inl (isDigit_of_mem_digits hdigit)
  intro c hc
  rw [toList_toText h] at hc
  simp only [List.mem_append, List.mem_cons] at hc
  rcases hc with hc | rfl | hc | rfl | hc | hc
  · exact .inl (isDigit_of_mem_digits hc)
  · exact .inr (by simp)
  · exact .inl (isDigit_of_mem_digits hc)
  · exact .inr (by simp)
  · exact .inl (isDigit_of_mem_digits hc)
  · exact hending c hc

theorem isCanonical_toText (h : v.IsWritable) : IsCanonical v.toText v where
  ascii := ascii_toText h
  spelled := spelling?_toText h
  parsed := ofText_toText_of_isWritable h
  reproduced := by
    rw [ofText_toText_of_isWritable h]
    rfl

end Writing

/-- Exactly the versions that can be written are read from the texts they are written as, and whatever
is read from a text can be written, in one canonical form. -/
theorem ofText_toText :
    (∀ v : Version, ofText v.toText = .ok v ↔ v.IsWritable) ∧
      ∀ (text : String) (v : Version), ofText text = .ok v →
        v.IsWritable ∧ IsCanonical v.toText v :=
  ⟨fun _ => ⟨isWritable_of_ofText, ofText_toText_of_isWritable⟩, fun _ _ h =>
    ⟨isWritable_of_ofText h, isCanonical_toText (isWritable_of_ofText h)⟩⟩

example : (ofText "01.٢.３rc4\n").map toText = .ok "1.2.3rc4" := rfl

end Version

end SchemaLoom
