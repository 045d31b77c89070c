import Mathlib.Data.List.Infix
import SchemaLoom.Failure
import SchemaLoom.Proofs.Version.Spelling

/-! The grammar of version texts: which texts stand for a version, and for which. Exactly the texts of
the grammar are read, except for those with a number of too many digits. -/

namespace SchemaLoom

namespace Version

/-- The texts of the grammar with the versions that they stand for. Each number is the one that its
digits stand for. -/
inductive Denotes : List Char → Version → Prop
  | intro {text : List Char} {s : Spelling} {major minor micro serial : Nat} (hs : Spells s text)
      (hmajor : Numeral s.major major) (hminor : Numeral s.minor minor)
      (hmicro : Numeral s.micro micro) (hserial : Numeral s.serial serial) :
      Denotes text ⟨major, minor, micro, s.level, serial⟩

def HasShortRuns (text : List Char) : Prop :=
  ∀ run, run <:+: text → IsRun run → run.length ≤ maxDigits

namespace Spelling

/-- The runs of digits in the order in which they are read as numbers. -/
def runs (s : Spelling) : List (List Char) := [s.major, s.minor, s.micro, s.serial]

def value (s : Spelling) : Version :=
  ⟨decimalValue s.major, decimalValue s.minor, decimalValue s.micro, s.level, decimalValue s.serial⟩

/-- The first number with too many digits to be read. -/
def longRun? (s : Spelling) : Option (List Char) := s.runs.find? (maxDigits < ·.length)

end Spelling

section Runs

variable {run xs ys : List Char} {c : Char}

theorem infix_cons_iff_of_isRun (hrun : IsRun run) (hc : isDecimal c = false) :
    run <:+: c :: xs ↔ run <:+: xs := by
  rw [List.infix_cons_iff, List.prefix_cons_iff]
  constructor
  · rintro ((hnil | ⟨rest, rfl, -⟩) | hxs)
    · exact absurd hnil hrun.ne_nil
    · have hdecimal := hrun.decimal c List.mem_cons_self
      rw [hc] at hdecimal
      cases hdecimal
    · exact hxs
  · exact .inr

/-- No run goes on from one text into the next if that does not begin with a digit. -/
theorem infix_append_iff_of_isRun (hrun : IsRun run) (hys : ∀ c ∈ ys.head?, isDecimal c = false) :
    run <:+: xs ++ ys ↔ run <:+: xs ∨ run <:+: ys := by
  rw [List.infix_append_iff]
  constructor
  · rintro (hxs | hys' | ⟨before, after, rfl, hbefore, hafter⟩)
    · exact .inl hxs
    · exact .inr hys'
    · cases after with
      | nil => exact .inl (by simpa using hbefore.isInfix)
      | cons d after =>
        obtain ⟨rest, rfl⟩ := hafter
        have hd := hrun.decimal d (by simp)
        rw [hys d rfl] at hd
        cases hd
  · rintro (hxs | hys')
    · exact .inl hxs
    · exact .inr (.inl hys')

end Runs

section Parts

variable {text run serial ending : List Char} {level : String} {s : Spelling}

theorem Suffix.infix_or_zero (h : Suffix text level serial) : serial <:+: text ∨ serial = ['0'] := by
  cases h with
  | final => exact .inr rfl
  | alpha | beta => exact .inl (List.suffix_cons _ _).isInfix
  | candidate => exact .inl ((List.suffix_cons _ _).trans (List.suffix_cons _ _)).isInfix

theorem Suffix.infix_serial (h : Suffix text level serial) (hending : ending ∈ [[], ['\n']])
    (hrun : IsRun run) (hwithin : run <:+: text ++ ending) : run <:+: serial := by
  have hstops : ∀ c ∈ ending.head?, isDecimal c = false := Suffix.final.isDecimal_head? hending
  have hnot : ¬run <:+: ending := by
    simp only [List.mem_cons, List.not_mem_nil, or_false] at hending
    rcases hending with rfl | rfl
    · exact fun hnil => hrun.ne_nil (List.infix_nil.mp hnil)
    · rw [infix_cons_iff_of_isRun hrun (by decide)]
      exact fun hnil => hrun.ne_nil (List.infix_nil.mp hnil)
  have htext : run <:+: text := by
    rw [infix_append_iff_of_isRun hrun hstops] at hwithin
    exact hwithin.resolve_right hnot
  cases h with
  | final => exact absurd (List.infix_nil.mp htext) hrun.ne_nil
  | alpha | beta => rwa [infix_cons_iff_of_isRun hrun (by decide)] at htext
  | candidate =>
    rwa [infix_cons_iff_of_isRun hrun (by decide), infix_cons_iff_of_isRun hrun (by decide)] at htext

theorem Spells.isRun (h : Spells s text) : ∀ run ∈ s.runs, IsRun run := by
  obtain ⟨hmajor, hminor, hmicro, hsuffix, -⟩ := h
  simp [Spelling.runs, hmajor, hminor, hmicro, hsuffix.isRun]

theorem infix_dotted_iff {major minor rest : List Char} (hrun : IsRun run) :
    run <:+: major ++ '.' :: (minor ++ '.' :: rest) ↔
      run <:+: major ∨ run <:+: minor ∨ run <:+: rest := by
  have hdot : isDecimal '.' = false := by decide
  rw [infix_append_iff_of_isRun hrun isDecimal_head?_dot, infix_cons_iff_of_isRun hrun hdot,
    infix_append_iff_of_isRun hrun isDecimal_head?_dot, infix_cons_iff_of_isRun hrun hdot]

/-- The serial number of a final version is the only part that need not be in the text. -/
theorem Spells.infix_or_zero (h : Spells s text) (hmem : run ∈ s.runs) :
    run <:+: text ∨ run = ['0'] := by
  have hrun := h.isRun run hmem
  obtain ⟨hmajor, hminor, hmicro, hsuffix, hending⟩ := h
  rw [infix_dotted_iff hrun, infix_append_iff_of_isRun hrun (hsuffix.isDecimal_head? hending)]
  simp only [Spelling.runs, List.mem_cons, List.not_mem_nil, or_false] at hmem
  rcases hmem with rfl | rfl | rfl | rfl
  · exact .inl (.inl List.infix_rfl)
  · exact .inl (.inr (.inl List.infix_rfl))
  · exact .inl (.inr (.inr (.inl List.infix_rfl)))
  · rcases hsuffix.infix_or_zero with hwithin | hzero
    · exact .inl (.inr (.inr (.inr (hwithin.trans (List.prefix_append _ _).isInfix))))
    · exact .inr hzero

theorem Spells.exists_of_infix (h : Spells s text) (hrun : IsRun run) (hwithin : run <:+: text) :
    ∃ part ∈ s.runs, run <:+: part := by
  obtain ⟨hmajor, hminor, hmicro, hsuffix, hending⟩ := h
  rw [infix_dotted_iff hrun,
    infix_append_iff_of_isRun hrun (hsuffix.isDecimal_head? hending)] at hwithin
  rcases hwithin with hin | hin | hin | hin
  · exact ⟨_, by simp [Spelling.runs], hin⟩
  · exact ⟨_, by simp [Spelling.runs], hin⟩
  · exact ⟨_, by simp [Spelling.runs], hin⟩
  · exact ⟨_, by simp [Spelling.runs], hsuffix.infix_serial hending hrun hin⟩

theorem Spells.hasShortRuns_iff (h : Spells s text) :
    HasShortRuns text ↔ ∀ run ∈ s.runs, run.length ≤ maxDigits := by
  constructor
  · intro hshort run hmem
    rcases h.infix_or_zero hmem with hwithin | rfl
    · exact hshort run hwithin (h.isRun run hmem)
    · decide
  · intro hshort run hwithin hrun
    obtain ⟨part, hmem, hpart⟩ := h.exists_of_infix hrun hwithin
    exact hpart.length_le.trans (hshort part hmem)

theorem Spells.denotes_iff {v : Version} (h : Spells s text) : Denotes text v ↔ s.value = v := by
  constructor
  · rintro ⟨hs, hmajor, hminor, hmicro, hserial⟩
    obtain rfl := Option.some.inj
      ((spelling?_eq_some_iff.mpr h).symm.trans (spelling?_eq_some_iff.mpr hs))
    rw [Spelling.value, (numeral_iff.mp hmajor).2, (numeral_iff.mp hminor).2,
      (numeral_iff.mp hmicro).2, (numeral_iff.mp hserial).2]
  · rintro rfl
    have hnumeral : ∀ run ∈ s.runs, Numeral run (decimalValue run) := by
      intro run hmem
      exact numeral_iff.mpr ⟨h.isRun run hmem, rfl⟩
    simp only [Spelling.runs, List.forall_mem_cons] at hnumeral
    obtain ⟨hmajor, hminor, hmicro, hserial, -⟩ := hnumeral
    exact .intro h hmajor hminor hmicro hserial

end Parts

section Reading

variable {text : String} {s : Spelling} {v : Version} {fault : VersionFault}

theorem number_bind (run : List Char) (next : Int → Except VersionFault Version) :
    (number run >>= next) =
      if maxDigits < run.length then .error (.tooManyDigits run.length)
      else next (decimalValue run) := by
  by_cases hlong : maxDigits < run.length
  · rw [number, if_neg (Nat.not_le.mpr hlong), if_pos hlong]
    rfl
  · rw [number, if_pos (Nat.not_lt.mp hlong), if_neg hlong]
    rfl

/-- The numbers of a version are read in their order, and the first that is too long is told of. -/
theorem ofText_of_spells (h : Spells s text.toList) :
    ofText text = match s.longRun? with
      | none => .ok s.value
      | some run => .error (.tooManyDigits run.length) := by
  rw [ofText, spelling?_eq_some_iff.mpr h]
  simp only [number_bind, Spelling.longRun?, Spelling.runs, List.find?_cons, List.find?_nil]
  split_ifs with hmajor hminor hmicro hserial
  · simp only [hmajor, decide_true]
  · simp only [hmajor, hminor, decide_true, decide_false]
  · simp only [hmajor, hminor, hmicro, decide_true, decide_false]
  · simp only [hmajor, hminor, hmicro, hserial, decide_true, decide_false]
  · simp only [hmajor, hminor, hmicro, hserial, decide_false]
    rfl

theorem ofText_of_not_spells (h : ∀ s, ¬Spells s text.toList) :
    ofText text = .error (.malformed text) := by
  have hnone : spelling? text.toList = none := by
    apply Option.eq_none_iff_forall_ne_some.mpr
    intro s hs
    exact h s (spelling?_eq_some_iff.mp hs)
  rw [ofText, hnone]

theorem longRun?_eq_none_iff : s.longRun? = none ↔ ∀ run ∈ s.runs, run.length ≤ maxDigits := by
  simp [Spelling.longRun?]

theorem ofText_eq_ok_iff :
    ofText text = .ok v ↔ Denotes text.toList v ∧ HasShortRuns text.toList := by
  by_cases hspelled : ∃ s, Spells s text.toList
  · obtain ⟨s, hs⟩ := hspelled
    rw [ofText_of_spells hs, hs.denotes_iff, hs.hasShortRuns_iff, ← longRun?_eq_none_iff]
    cases s.longRun? with
    | none => simp
    | some run => simp
  · have hnot : ∀ s, ¬Spells s text.toList := fun s hs => hspelled ⟨s, hs⟩
    rw [ofText_of_not_spells hnot]
    constructor
    · intro h
      cases h
    · rintro ⟨⟨hs, -, -, -, -⟩, -⟩
      exact absurd hs (hnot _)

theorem ofText_eq_malformed_iff :
    ofText text = .error (.malformed text) ↔ ∀ v, ¬Denotes text.toList v := by
  constructor
  · rintro h v ⟨hs, -, -, -, -⟩
    rw [ofText_of_spells hs] at h
    split at h <;> cases h
  · intro h
    exact ofText_of_not_spells fun s hs => h s.value (hs.denotes_iff.mpr rfl)

theorem eq_of_ofText_eq_error (h : ofText text = .error fault) :
    fault = .malformed text ∨
      ∃ run, run <:+: text.toList ∧ IsRun run ∧ maxDigits < run.length ∧
        fault = .tooManyDigits run.length := by
  by_cases hspelled : ∃ s, Spells s text.toList
  · obtain ⟨s, hs⟩ := hspelled
    rw [ofText_of_spells hs] at h
    split at h
    · cases h
    · rename_i run hrun
      cases h
      have hmem := List.mem_of_find?_eq_some hrun
      have hlong : maxDigits < run.length := by simpa using List.find?_some hrun
      rcases hs.infix_or_zero hmem with hwithin | rfl
      · exact .inr ⟨run, hwithin, hs.isRun run hmem, hlong, rfl⟩
      · exact absurd hlong (by decide)
  · rw [ofText_of_not_spells fun s hs => hspelled ⟨s, hs⟩] at h
    exact .inl (Except.error.inj h).symm

end Reading

/-- A text is read as a version if and only if it is one of the grammar and has no run of too many
digits; the numbers are those that its digits stand for. Every other text is refused. -/
theorem ofText_eq_ok_iff_denotes (text : String) :
    (∀ v, ofText text = .ok v ↔ Denotes text.toList v ∧ HasShortRuns text.toList) ∧
      (ofText text = .error (.malformed text) ↔ ∀ v, ¬Denotes text.toList v) ∧
      ∀ fault, ofText text = .error fault →
        (Failure.version fault).kind = .value ∧
          (fault = .malformed text ∨
            ∃ run, run <:+: text.toList ∧ IsRun run ∧ maxDigits < run.length ∧
              fault = .tooManyDigits run.length) := by
  refine ⟨fun v => ofText_eq_ok_iff, ofText_eq_malformed_iff, ?_⟩
  intro fault h
  exact ⟨rfl, eq_of_ofText_eq_error h⟩

example : ofText "1.2.3rc\n" = .error (.malformed "1.2.3rc\n") := rfl

end Version

end SchemaLoom
