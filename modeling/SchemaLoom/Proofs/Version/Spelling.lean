import Mathlib.Data.List.TakeWhile
import SchemaLoom.Proofs.Text.Decimal
import SchemaLoom.Version

/-! How versions are spelled. What is read from a text are the parts that the text is put together of,
and no text is put together of other parts. -/

namespace SchemaLoom

namespace Version

/-- What may stand behind the three numbers, with the stage and the serial number that it tells of. -/
inductive Suffix : List Char → String → List Char → Prop
  | final : Suffix [] "final" ['0']
  | alpha {serial : List Char} (hserial : IsRun serial) : Suffix ('a' :: serial) "alpha" serial
  | beta {serial : List Char} (hserial : IsRun serial) : Suffix ('b' :: serial) "beta" serial
  | candidate {serial : List Char} (hserial : IsRun serial) :
      Suffix ('r' :: 'c' :: serial) "candidate" serial

/-- The texts that are put together of the parts of a version. -/
inductive Spells : Spelling → List Char → Prop
  | intro {major minor micro suffix serial ending : List Char} {level : String}
      (hmajor : IsRun major) (hminor : IsRun minor) (hmicro : IsRun micro)
      (hsuffix : Suffix suffix level serial) (hending : ending ∈ [[], ['\n']]) :
      Spells ⟨major, minor, micro, level, serial⟩
        (major ++ '.' :: (minor ++ '.' :: (micro ++ (suffix ++ ending))))

section Parts

variable {text run rest serial : List Char} {level : String}

theorem atEnd_iff : atEnd text = true ↔ text ∈ [[], ['\n']] := by
  simp [atEnd]

theorem digitRun?_eq_some_iff :
    digitRun? text = some (run, rest) ↔
      text = run ++ rest ∧ IsRun run ∧ ∀ c ∈ rest.head?, isDecimal c = false := by
  constructor
  · intro h
    unfold digitRun? at h
    split at h
    · cases h
    · rename_i hne
      cases h
      refine ⟨List.takeWhile_append_dropWhile.symm, ⟨fun c hc => List.mem_takeWhile_imp hc, hne⟩, ?_⟩
      intro c hc
      have hstops := List.head?_dropWhile_not isDecimal text
      rwa [Option.mem_def.mp hc] at hstops
  · rintro ⟨rfl, ⟨hdecimal, hne⟩, hrest⟩
    have hstops : rest.takeWhile isDecimal = [] ∧ rest.dropWhile isDecimal = rest := by
      cases rest with
      | nil => exact ⟨rfl, rfl⟩
      | cons c rest => simp [hrest c rfl]
    have htake : (run ++ rest).takeWhile isDecimal = run := by
      rw [List.takeWhile_append_of_pos hdecimal, hstops.1, List.append_nil]
    obtain ⟨c, run, rfl⟩ := List.exists_cons_of_ne_nil hne
    rw [digitRun?, htake, List.dropWhile_append_of_pos hdecimal, hstops.2]

theorem dot?_eq_some_iff : dot? text = some rest ↔ text = '.' :: rest := by
  constructor
  · intro h
    unfold dot? at h
    split at h <;> cases h
    rfl
  · rintro rfl
    rfl

theorem isDecimal_head?_dot : ∀ c ∈ ('.' :: text).head?, isDecimal c = false := by
  rintro c ⟨⟩
  decide

theorem stage?_eq_some_iff :
    stage? text = some (level, rest) ↔ (level, text) ∈
      [("alpha", 'a' :: rest), ("beta", 'b' :: rest), ("candidate", 'r' :: 'c' :: rest)] := by
  constructor
  · intro h
    unfold stage? at h
    split at h <;> cases h <;> simp
  · intro h
    simp only [List.mem_cons, List.not_mem_nil, or_false, Prod.mk.injEq] at h
    rcases h with ⟨rfl, rfl⟩ | ⟨rfl, rfl⟩ | ⟨rfl, rfl⟩ <;> rfl

theorem Suffix.isRun (h : Suffix text level serial) : IsRun serial := by
  cases h with
  | final =>
    have hzero : isDecimal '0' = true := isDecimal_of_isDigit (by decide)
    exact ⟨by simpa using hzero, List.cons_ne_nil _ _⟩
  | alpha hserial => exact hserial
  | beta hserial => exact hserial
  | candidate hserial => exact hserial

/-- What stands behind the numbers does not go on with their digits. -/
theorem Suffix.isDecimal_head? (h : Suffix text level serial) (hrest : rest ∈ [[], ['\n']]) :
    ∀ c ∈ (text ++ rest).head?, isDecimal c = false := by
  cases h with
  | final =>
    simp only [List.mem_cons, List.not_mem_nil, or_false] at hrest
    rcases hrest with rfl | rfl
    · simp
    · rintro c ⟨⟩
      decide
  | alpha | beta | candidate =>
    rintro c ⟨⟩
    decide

theorem Suffix.level_cases (h : Suffix text level serial) :
    level ∈ ["alpha", "beta", "candidate", "final"] ∧ (level = "final" → serial = ['0']) := by
  cases h <;> simp

theorem Suffix.mem_cases {c : Char} (h : Suffix text level serial) (hc : c ∈ text) :
    c ∈ ['a', 'b', 'r', 'c'] ∨ c ∈ serial := by
  cases h with
  | final => cases hc
  | alpha | beta =>
    rcases List.mem_cons.mp hc with rfl | hc
    · exact .inl (by decide)
    · exact .inr hc
  | candidate =>
    simp only [List.mem_cons] at hc
    rcases hc with rfl | rfl | hc
    · exact .inl (by decide)
    · exact .inl (by decide)
    · exact .inr hc

theorem suffix_of_stage? (h : stage? text = some (level, serial ++ rest)) (hserial : IsRun serial) :
    ∃ suffix, Suffix suffix level serial ∧ text = suffix ++ rest := by
  have hmem := stage?_eq_some_iff.mp h
  simp only [List.mem_cons, List.not_mem_nil, or_false, Prod.mk.injEq] at hmem
  rcases hmem with ⟨rfl, rfl⟩ | ⟨rfl, rfl⟩ | ⟨rfl, rfl⟩
  · exact ⟨_, .alpha hserial, rfl⟩
  · exact ⟨_, .beta hserial, rfl⟩
  · exact ⟨_, .candidate hserial, rfl⟩

theorem suffix?_of_stage? (h : stage? text = some (level, serial ++ rest)) (hserial : IsRun serial)
    (hrest : rest ∈ [[], ['\n']]) : suffix? text = some (level, serial) := by
  have hmore : atEnd text = false := by
    have hmem := stage?_eq_some_iff.mp h
    simp only [List.mem_cons, List.not_mem_nil, or_false, Prod.mk.injEq] at hmem
    rcases hmem with ⟨-, rfl⟩ | ⟨-, rfl⟩ | ⟨-, rfl⟩ <;> simp [atEnd]
  have hstops : ∀ c ∈ rest.head?, isDecimal c = false := Suffix.final.isDecimal_head? hrest
  have hrun : digitRun? (serial ++ rest) = some (serial, rest) :=
    digitRun?_eq_some_iff.mpr ⟨rfl, hserial, hstops⟩
  rw [suffix?, hmore, if_neg (by simp)]
  simp only [h, hrun, atEnd_iff.mpr hrest, Option.bind_eq_bind, Option.bind_some, if_true]

theorem suffix?_eq_some_iff :
    suffix? text = some (level, serial) ↔
      ∃ suffix, ∃ ending ∈ [[], ['\n']], Suffix suffix level serial ∧ text = suffix ++ ending := by
  constructor
  · intro h
    unfold suffix? at h
    split at h
    · rename_i hend
      cases h
      exact ⟨[], text, atEnd_iff.mp hend, .final, rfl⟩
    · obtain ⟨⟨own, after⟩, hstage, h⟩ := Option.bind_eq_some_iff.mp h
      obtain ⟨⟨run, ending⟩, hrun, h⟩ := Option.bind_eq_some_iff.mp h
      dsimp only at h hrun
      split at h
      · rename_i hend
        cases h
        obtain ⟨rfl, hserial, -⟩ := digitRun?_eq_some_iff.mp hrun
        obtain ⟨suffix, hsuffix, htext⟩ := suffix_of_stage? hstage hserial
        exact ⟨suffix, ending, atEnd_iff.mp hend, hsuffix, htext⟩
      · cases h
  · rintro ⟨suffix, ending, hending, hsuffix, rfl⟩
    cases hsuffix with
    | final => rw [List.nil_append, suffix?, if_pos (atEnd_iff.mpr hending)]
    | alpha hserial => exact suffix?_of_stage? rfl hserial hending
    | beta hserial => exact suffix?_of_stage? rfl hserial hending
    | candidate hserial => exact suffix?_of_stage? rfl hserial hending

end Parts

/-- The parts that are read from a text are those that it is put together of. -/
theorem spelling?_eq_some_iff {text : List Char} {s : Spelling} :
    spelling? text = some s ↔ Spells s text := by
  constructor
  · intro h
    obtain ⟨⟨major, rest⟩, hfirst, h⟩ := Option.bind_eq_some_iff.mp h
    obtain ⟨rest, hdot, h⟩ := Option.bind_eq_some_iff.mp h
    obtain ⟨⟨minor, rest⟩, hsecond, h⟩ := Option.bind_eq_some_iff.mp h
    obtain ⟨rest, hdot', h⟩ := Option.bind_eq_some_iff.mp h
    obtain ⟨⟨micro, rest⟩, hthird, h⟩ := Option.bind_eq_some_iff.mp h
    obtain ⟨⟨level, serial⟩, hrest, h⟩ := Option.bind_eq_some_iff.mp h
    cases h
    obtain ⟨rfl, hmajor, -⟩ := digitRun?_eq_some_iff.mp hfirst
    obtain rfl := dot?_eq_some_iff.mp hdot
    obtain ⟨rfl, hminor, -⟩ := digitRun?_eq_some_iff.mp hsecond
    obtain rfl := dot?_eq_some_iff.mp hdot'
    obtain ⟨rfl, hmicro, -⟩ := digitRun?_eq_some_iff.mp hthird
    obtain ⟨suffix, ending, hending, hsuffix, rfl⟩ := suffix?_eq_some_iff.mp hrest
    exact .intro hmajor hminor hmicro hsuffix hending
  · rintro ⟨hmajor, hminor, hmicro, hsuffix, hending⟩
    -- Each run is followed by something else than a digit, so all of it is read.
    have hend := suffix?_eq_some_iff.mpr ⟨_, _, hending, hsuffix, rfl⟩
    simp only [spelling?, digitRun?_eq_some_iff.mpr ⟨rfl, hmajor, isDecimal_head?_dot⟩,
      digitRun?_eq_some_iff.mpr ⟨rfl, hminor, isDecimal_head?_dot⟩,
      digitRun?_eq_some_iff.mpr ⟨rfl, hmicro, hsuffix.isDecimal_head? hending⟩, hend, dot?,
      Option.bind_eq_bind, Option.bind_some]

theorem Spells.level_cases {text : List Char} {s : Spelling} (h : Spells s text) :
    s.level ∈ ["alpha", "beta", "candidate", "final"] ∧ (s.level = "final" → s.serial = ['0']) := by
  obtain ⟨-, -, -, hsuffix, -⟩ := h
  exact hsuffix.level_cases

end Version

end SchemaLoom
