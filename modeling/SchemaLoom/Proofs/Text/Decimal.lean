import Mathlib.Algebra.Order.Group.Nat
import Mathlib.Data.List.Induction
import SchemaLoom.Text.Decimal

/-! The digits of decimal notation are among the decimal digits of all scripts, and they stand for the
number that they are the notation of. No run of digits stands for more than its length allows. What a
run stands for is its value in positional notation, in whatever scripts its digits are. -/

namespace SchemaLoom

/-- A digit of some script stands as far behind the zero of the script as its value says. -/
def DigitOf (c : Char) (value : Nat) : Prop :=
  value < 10 ∧ ∃ start ∈ decimalZeros, c.toNat = start + value

/-- Digits one after another, at least one, in whatever scripts. -/
structure IsRun (run : List Char) : Prop where
  decimal : ∀ c ∈ run, isDecimal c = true
  ne_nil : run ≠ []

/-- Positional notation: a digit behind others makes tens of what they stand for. -/
inductive Numeral : List Char → Nat → Prop
  | digit {c : Char} {value : Nat} (h : DigitOf c value) : Numeral [c] value
  | concat {run : List Char} {n : Nat} {c : Char} {value : Nat} (hrun : Numeral run n)
      (h : DigitOf c value) : Numeral (run ++ [c]) (10 * n + value)

/-- The digits of one script end before the zero of the next. -/
theorem pairwise_decimalZeros : decimalZeros.Pairwise fun start next => start + 10 ≤ next := by
  decide +kernel

theorem digitValue?_eq_some_iff {c : Char} {value : Nat} :
    digitValue? c = some value ↔ DigitOf c value := by
  constructor
  · intro h
    obtain ⟨start, hstart, rfl⟩ := Option.map_eq_some_iff.mp h
    have hfound := List.find?_some hstart
    simp only [Bool.and_eq_true, decide_eq_true_eq] at hfound
    exact ⟨by omega, start, List.mem_of_find?_eq_some hstart, by omega⟩
  · rintro ⟨hvalue, start, hmem, hc⟩
    obtain ⟨earlier, later, hzeros⟩ := List.append_of_mem hmem
    have hearlier : ∀ a ∈ earlier, a + 10 ≤ start := by
      have hpairwise := pairwise_decimalZeros
      rw [hzeros] at hpairwise
      exact fun a ha => (List.pairwise_append.mp hpairwise).2.2 a ha start List.mem_cons_self
    have hfound : decimalZeros.find? (fun start => start ≤ c.toNat && c.toNat < start + 10) =
        some start := by
      apply List.find?_eq_some_iff_append.mpr
      refine ⟨?_, earlier, later, hzeros, ?_⟩
      · simp only [Bool.and_eq_true, decide_eq_true_eq]
        omega
      · intro a ha
        have hbefore := hearlier a ha
        simp only [Bool.not_eq_true', Bool.and_eq_false_iff, decide_eq_false_iff_not]
        omega
    have hdifference : c.toNat - start = value := by omega
    rw [digitValue?, hfound, Option.map_some, hdifference]

theorem digitValue?_of_isDigit {c : Char} (h : c.isDigit = true) :
    digitValue? c = some (c.toNat - 48) := by
  have hbounds : 48 ≤ c.toNat ∧ c.toNat ≤ 57 := by
    simpa [Char.isDigit, UInt32.le_iff_toNat_le] using h
  have hstart : 48 ∈ decimalZeros := List.mem_cons_self
  exact digitValue?_eq_some_iff.mpr ⟨by omega, 48, hstart, by omega⟩

theorem isDecimal_of_isDigit {c : Char} (h : c.isDigit = true) : isDecimal c = true := by
  rw [isDecimal, digitValue?_of_isDigit h]
  rfl

theorem digitValue?_lt {c : Char} {value : Nat} (h : digitValue? c = some value) : value < 10 :=
  (digitValue?_eq_some_iff.mp h).1

theorem isDecimal_iff {c : Char} : isDecimal c = true ↔ ∃ value, DigitOf c value := by
  rw [isDecimal, Option.isSome_iff_exists]
  simp only [digitValue?_eq_some_iff]

theorem decimalValue_concat (digits : List Char) (c : Char) :
    decimalValue (digits ++ [c]) = 10 * decimalValue digits + (digitValue? c).getD 0 := by
  rw [decimalValue, List.foldl_append]
  rfl

/-- Exactly the runs of digits are numerals, and each stands for one number. -/
theorem numeral_iff {run : List Char} {n : Nat} :
    Numeral run n ↔ IsRun run ∧ decimalValue run = n := by
  constructor
  · intro h
    induction h with
    | digit h =>
      have hc := isDecimal_iff.mpr ⟨_, h⟩
      refine ⟨⟨by simpa using hc, List.cons_ne_nil _ _⟩, ?_⟩
      simp [decimalValue, digitValue?_eq_some_iff.mpr h]
    | concat hrun h ih =>
      obtain ⟨⟨hdecimal, -⟩, hvalue⟩ := ih
      have hc := isDecimal_iff.mpr ⟨_, h⟩
      refine ⟨⟨?_, List.concat_ne_nil _ _⟩, ?_⟩
      · simpa [or_imp, forall_and] using ⟨hdecimal, hc⟩
      · rw [decimalValue_concat, hvalue, digitValue?_eq_some_iff.mpr h, Option.getD_some]
  · rintro ⟨⟨hdecimal, hne⟩, rfl⟩
    induction run using List.reverseRecOn with
    | nil => exact absurd rfl hne
    | append_singleton run c ih =>
      obtain ⟨value, hc⟩ := isDecimal_iff.mp (hdecimal c (by simp))
      rw [decimalValue_concat, digitValue?_eq_some_iff.mpr hc, Option.getD_some]
      cases run with
      | nil => simpa [decimalValue] using Numeral.digit hc
      | cons first rest =>
        have hrun : ∀ d ∈ first :: rest, isDecimal d = true := by
          intro d hd
          exact hdecimal d (List.mem_append_left _ hd)
        exact .concat (ih hrun (List.cons_ne_nil _ _)) hc

theorem decimalValue_lt (digits : List Char) : decimalValue digits < 10 ^ digits.length := by
  induction digits using List.reverseRecOn with
  | nil => decide
  | append_singleton digits c ih =>
    have hc : (digitValue? c).getD 0 < 10 := by
      cases hvalue : digitValue? c with
      | none => decide
      | some value => exact digitValue?_lt hvalue
    rw [decimalValue_concat, List.length_append, List.length_singleton, Nat.pow_succ]
    omega

theorem isDigit_of_mem_toDigits {n : Nat} {c : Char} (h : c ∈ Nat.toDigits 10 n) :
    c.isDigit = true :=
  Nat.isDigit_of_mem_toDigits (by decide) (by decide) h

theorem decimalValue_toDigits (n : Nat) : decimalValue (Nat.toDigits 10 n) = n := by
  have hvalue : ∀ (digits : List Char) (start : Nat), (∀ c ∈ digits, c.isDigit = true) →
      digits.foldl (fun n c => 10 * n + (digitValue? c).getD 0) start =
        Nat.ofDigitChars 10 digits start := by
    intro digits
    induction digits with
    | nil => exact fun _ _ => rfl
    | cons c rest ih =>
      intro start hall
      obtain ⟨hc, hrest⟩ := List.forall_mem_cons.mp hall
      rw [List.foldl_cons, ih _ hrest, digitValue?_of_isDigit hc, Nat.ofDigitChars_cons]
      rfl
  rw [decimalValue, hvalue _ 0 fun c hc => isDigit_of_mem_toDigits hc]
  exact Nat.ofDigitChars_toDigits (by decide) (by decide)

end SchemaLoom
