import Mathlib.Data.List.Forall2
import Mathlib.Data.List.Nodup
import Mathlib.Data.List.Perm.Basic

/-! Computations that may fail: when a sequence of them succeeds, a loop over a list, and a list of
results, in whatever order the list is gone through, and when two of them end alike. What is looked
up in a list by its key is found in whatever order the list is. -/

namespace SchemaLoom

theorem exists_of_bind_eq_ok {first : Except ε α} {next : α → Except ε β} {b : β}
    (h : (first >>= next) = .ok b) : ∃ a, first = .ok a ∧ next a = .ok b := by
  cases first with
  | error e => cases h
  | ok a => exact ⟨a, rfl, h⟩

theorem bind_eq_ok_iff {first : Except ε α} {next : α → Except ε β} {b : β} :
    (first >>= next) = .ok b ↔ ∃ a, first = .ok a ∧ next a = .ok b := by
  refine ⟨exists_of_bind_eq_ok, ?_⟩
  rintro ⟨a, rfl, h⟩
  exact h

theorem isSome_toOption_iff {result : Except ε α} :
    result.toOption.isSome = true ↔ ∃ a, result = .ok a := by
  cases result <;> simp [Except.toOption]

theorem exists_ok_of_any {result : Except ε α} {check : α → Bool}
    (h : result.toOption.any check = true) : ∃ a, result = .ok a ∧ check a = true := by
  cases result with
  | error e => simp [Except.toOption] at h
  | ok a => exact ⟨a, rfl, by simpa [Except.toOption] using h⟩

section Lists

variable {f : α → Except ε β} {items others : List α}

theorem forIn_check_eq_ok_iff {check : α → Except ε PUnit} {u : PUnit} :
    (forIn items PUnit.unit fun a _ => do check a; pure (ForInStep.yield PUnit.unit) :
      Except ε PUnit) = .ok u ↔ ∀ a ∈ items, check a = .ok PUnit.unit := by
  induction items with
  | nil => simp [pure, Except.pure]
  | cons a rest ih =>
    rw [List.forIn_cons, List.forall_mem_cons, ← ih]
    cases check a with
    | ok _ => simp; rfl
    | error fault => simp [bind, Except.bind]

theorem mapM_cons_eq_ok_iff {a : α} {found : List β} :
    (a :: items).mapM f = .ok found ↔
      ∃ b more, f a = .ok b ∧ items.mapM f = .ok more ∧ found = b :: more := by
  rw [List.mapM_cons]
  cases f a with
  | error fault => simp [bind, Except.bind]
  | ok b =>
    cases items.mapM f with
    | error fault => simp [bind, Except.bind]
    | ok more => simp [bind, Except.bind, pure, Except.pure, eq_comm]

theorem mapM_perm (hp : items.Perm others) {found : List β} (h : items.mapM f = .ok found) :
    ∃ more, others.mapM f = .ok more ∧ found.Perm more := by
  induction hp generalizing found with
  | nil => exact ⟨found, h, .refl _⟩
  | cons a _ ih =>
    obtain ⟨b, rest, hb, hrest, rfl⟩ := mapM_cons_eq_ok_iff.mp h
    obtain ⟨more, hmore, hperm⟩ := ih hrest
    exact ⟨b :: more, mapM_cons_eq_ok_iff.mpr ⟨b, more, hb, hmore, rfl⟩, hperm.cons b⟩
  | swap a a' rest =>
    obtain ⟨b, _, hb, hrest, rfl⟩ := mapM_cons_eq_ok_iff.mp h
    obtain ⟨b', more, hb', hmore, rfl⟩ := mapM_cons_eq_ok_iff.mp hrest
    have hown := mapM_cons_eq_ok_iff.mpr ⟨b, more, hb, hmore, rfl⟩
    exact ⟨b' :: b :: more, mapM_cons_eq_ok_iff.mpr ⟨b', _, hb', hown, rfl⟩, .swap ..⟩
  | trans _ _ ih ih' =>
    obtain ⟨between, hbetween, hperm⟩ := ih h
    obtain ⟨more, hmore, hperm'⟩ := ih' hbetween
    exact ⟨more, hmore, hperm.trans hperm'⟩

theorem mapM_keys {key : β → γ} {name : α → γ}
    (hf : ∀ a b, f a = .ok b → key b = name a) {found : List β} (h : items.mapM f = .ok found) :
    found.map key = items.map name := by
  induction items generalizing found with
  | nil =>
    obtain rfl : [] = found := Except.ok.inj h
    rfl
  | cons a rest ih =>
    obtain ⟨b, more, hb, hmore, rfl⟩ := mapM_cons_eq_ok_iff.mp h
    rw [List.map_cons, List.map_cons, hf a b hb, ih hmore]

theorem mapM_eq_ok_iff_forall₂ {found : List β} :
    items.mapM f = .ok found ↔ List.Forall₂ (fun a b => f a = .ok b) items found := by
  induction items generalizing found with
  | nil => exact ⟨fun h => Except.ok.inj h ▸ .nil, fun h => by cases h; rfl⟩
  | cons a rest ih =>
    rw [mapM_cons_eq_ok_iff]
    constructor
    · rintro ⟨b, more, hb, hmore, rfl⟩
      exact .cons hb (ih.mp hmore)
    · intro h
      cases h with
      | cons hb hmore => exact ⟨_, _, hb, ih.mpr hmore, rfl⟩

theorem exists_mapM_eq_ok (h : ∀ a ∈ items, ∃ b, f a = .ok b) :
    ∃ found, items.mapM f = .ok found := by
  induction items with
  | nil => exact ⟨[], rfl⟩
  | cons a rest ih =>
    obtain ⟨b, hb⟩ := h a (List.mem_cons_self ..)
    obtain ⟨more, hmore⟩ := ih fun a' ha' => h a' (List.mem_cons_of_mem _ ha')
    exact ⟨b :: more, mapM_cons_eq_ok_iff.mpr ⟨b, more, hb, hmore, rfl⟩⟩

theorem exists_of_mem_mapM {found : List β} (h : items.mapM f = .ok found) {b : β}
    (hb : b ∈ found) : ∃ a ∈ items, f a = .ok b := by
  induction items generalizing found with
  | nil =>
    obtain rfl : [] = found := Except.ok.inj h
    cases hb
  | cons a rest ih =>
    obtain ⟨own, more, hown, hmore, rfl⟩ := mapM_cons_eq_ok_iff.mp h
    rcases List.mem_cons.mp hb with rfl | hb
    · exact ⟨a, List.mem_cons_self .., hown⟩
    · obtain ⟨item, hitem, hi⟩ := ih hmore hb
      exact ⟨item, List.mem_cons_of_mem _ hitem, hi⟩

theorem exists_mem_of_mapM {found : List β} (h : items.mapM f = .ok found) {a : α}
    (ha : a ∈ items) : ∃ b ∈ found, f a = .ok b := by
  induction items generalizing found with
  | nil => cases ha
  | cons first rest ih =>
    obtain ⟨b, more, hb, hmore, rfl⟩ := mapM_cons_eq_ok_iff.mp h
    rcases List.mem_cons.mp ha with rfl | ha
    · exact ⟨b, List.mem_cons_self .., hb⟩
    · obtain ⟨own, hown, ho⟩ := ih hmore ha
      exact ⟨own, List.mem_cons_of_mem _ hown, ho⟩

theorem exists_of_mapM_eq_error {fault : ε} (h : items.mapM f = .error fault) :
    ∃ item ∈ items, f item = .error fault := by
  induction items with
  | nil => cases h
  | cons a rest ih =>
    rw [List.mapM_cons] at h
    cases ha : f a with
    | error own =>
      rw [ha] at h
      obtain rfl : own = fault := Except.error.inj h
      exact ⟨a, List.mem_cons_self .., ha⟩
    | ok b =>
      cases hrest : rest.mapM f with
      | error own =>
        rw [ha, hrest] at h
        obtain rfl : own = fault := Except.error.inj h
        obtain ⟨item, hitem, hown⟩ := ih hrest
        exact ⟨item, List.mem_cons_of_mem _ hitem, hown⟩
      | ok more =>
        rw [ha, hrest] at h
        cases h

end Lists

/-- The fault of the first item, in their order, for which a computation fails. -/
def FirstFault (f : α → Except ε β) (items : List α) (fault : ε) : Prop :=
  ∃ before item after, items = before ++ item :: after ∧ f item = .error fault ∧
    ∀ earlier ∈ before, ∃ b, f earlier = .ok b

namespace FirstFault

variable {f : α → Except ε β} {items : List α} {fault : ε}

theorem append (h : FirstFault f items fault) (more : List α) :
    FirstFault f (items ++ more) fault := by
  obtain ⟨before, item, after, rfl, hitem, hbefore⟩ := h
  exact ⟨before, item, after ++ more, by simp, hitem, hbefore⟩

theorem concat {item : α} (hok : ∀ a ∈ items, ∃ b, f a = .ok b) (h : f item = .error fault) :
    FirstFault f (items ++ [item]) fault :=
  ⟨items, item, [], rfl, h, hok⟩

theorem mapM_eq (h : FirstFault f items fault) : items.mapM f = .error fault := by
  obtain ⟨before, item, after, rfl, hitem, hbefore⟩ := h
  obtain ⟨found, hfound⟩ := exists_mapM_eq_ok hbefore
  rw [List.mapM_append, hfound, List.mapM_cons, hitem]
  rfl

theorem exists_mem (h : FirstFault f items fault) : ∃ item ∈ items, f item = .error fault := by
  obtain ⟨before, item, after, rfl, hitem, -⟩ := h
  exact ⟨item, by simp, hitem⟩

end FirstFault

theorem exists_firstFault {f : α → Except ε β} {items : List α}
    (h : ∃ item ∈ items, ∃ fault, f item = .error fault) : ∃ fault, FirstFault f items fault := by
  induction items with
  | nil => simp at h
  | cons a rest ih =>
    cases ha : f a with
    | error fault => exact ⟨fault, [], a, rest, rfl, ha, by simp⟩
    | ok b =>
      obtain ⟨item, hitem, own, hown⟩ := h
      have hrest : item ∈ rest := by
        rcases List.mem_cons.mp hitem with rfl | hrest
        · simp [ha] at hown
        · exact hrest
      obtain ⟨fault, before, first, after, rfl, hfirst, hbefore⟩ := ih ⟨item, hrest, own, hown⟩
      refine ⟨fault, a :: before, first, after, rfl, hfirst, fun earlier he => ?_⟩
      rcases List.mem_cons.mp he with rfl | he
      · exact ⟨b, ha⟩
      · exact hbefore earlier he

/-- Computations that end alike: with the same fault, or with results that are related. -/
inductive EndsAlike (related : α → β → Prop) : Except ε α → Except ε β → Prop where
  | ok {a : α} {b : β} : related a b → EndsAlike related (.ok a) (.ok b)
  | error (fault : ε) : EndsAlike related (.error fault) (.error fault)

namespace EndsAlike

variable {first : Except ε α} {second : Except ε β} {related : α → β → Prop}

theorem trans {third : Except ε γ} {further : β → γ → Prop} {whole : α → γ → Prop}
    (h : EndsAlike related first second) (h' : EndsAlike further second third)
    (hwhole : ∀ a b c, related a b → further b c → whole a c) : EndsAlike whole first third := by
  cases h with
  | error fault => cases h' with
    | error _ => exact .error fault
  | ok hab => cases h' with
    | ok hbc => exact .ok (hwhole _ _ _ hab hbc)

theorem bind {next : α → Except ε γ} {last : β → Except ε δ} {after : γ → δ → Prop}
    (h : EndsAlike related first second)
    (hnext : ∀ a b, related a b → EndsAlike after (next a) (last b)) :
    EndsAlike after (first >>= next) (second >>= last) := by
  cases h with
  | ok hab => exact hnext _ _ hab
  | error fault => exact .error fault

theorem map {f : α → γ} {g : β → δ} {after : γ → δ → Prop} (h : EndsAlike related first second)
    (hnext : ∀ a b, related a b → after (f a) (g b)) :
    EndsAlike after (first.map f) (second.map g) := by
  cases h with
  | ok hab => exact .ok (hnext _ _ hab)
  | error fault => exact .error fault

theorem eq_error {fault : ε} (h : EndsAlike related (.error fault) second) :
    second = .error fault := by
  cases h
  rfl

theorem exists_ok {a : α} (h : EndsAlike related (.ok a) second) :
    ∃ b, second = .ok b ∧ related a b := by
  cases h with
  | ok hab => exact ⟨_, rfl, hab⟩

theorem mapM {f : α → Except ε β} {g : α → Except ε γ} {related : β → γ → Prop} {items : List α}
    (h : ∀ a, EndsAlike related (f a) (g a)) :
    EndsAlike (List.Forall₂ related) (items.mapM f) (items.mapM g) := by
  induction items with
  | nil => exact .ok .nil
  | cons a rest ih =>
    rw [List.mapM_cons, List.mapM_cons]
    exact (h a).bind fun _ _ hab => ih.bind fun _ _ hrest => .ok (.cons hab hrest)

/-- The order of the items does not matter if the computation has but one fault. -/
theorem mapM_perm {f : α → Except ε β} {items others : List α} (hp : items.Perm others) {fault : ε}
    (hfault : ∀ a own, f a = .error own → own = fault) :
    EndsAlike List.Perm (items.mapM f) (others.mapM f) := by
  have hfails : ∀ (items : List α) (own : ε), items.mapM f = .error own → own = fault := by
    intro items own h
    obtain ⟨item, -, hitem⟩ := exists_of_mapM_eq_error h
    exact hfault item own hitem
  cases hi : items.mapM f with
  | ok found =>
    obtain ⟨more, hmore, hperm⟩ := SchemaLoom.mapM_perm hp hi
    rw [hmore]
    exact .ok hperm
  | error own =>
    cases ho : others.mapM f with
    | ok more =>
      obtain ⟨found, hfound, -⟩ := SchemaLoom.mapM_perm hp.symm ho
      simp [hfound] at hi
    | error other =>
      rw [hfails items own hi, hfails others other ho]
      exact .error fault

end EndsAlike

section Keys

variable [DecidableEq κ] {key : α → κ} {items others : List α}

/-- An item is found by its key if no other one has the same. -/
theorem find?_key_eq_some_iff (h : (items.map key).Nodup) {name : κ} {a : α} :
    items.find? (key · = name) = some a ↔ a ∈ items ∧ key a = name := by
  constructor
  · intro ha
    exact ⟨List.mem_of_find?_eq_some ha, by simpa using List.find?_some ha⟩
  · rintro ⟨hm, rfl⟩
    cases hf : items.find? (key · = key a) with
    | none => exact absurd (List.find?_eq_none.mp hf a hm) (by simp)
    | some b =>
      have hb : key b = key a := by simpa using List.find?_some hf
      rw [List.inj_on_of_nodup_map h (List.mem_of_find?_eq_some hf) hm hb]

theorem find?_key_perm (h : (items.map key).Nodup) (hp : items.Perm others) (name : κ) :
    items.find? (key · = name) = others.find? (key · = name) := by
  refine Option.ext fun a => ?_
  rw [find?_key_eq_some_iff h, find?_key_eq_some_iff ((hp.map key).nodup_iff.mp h), hp.mem_iff]

end Keys

end SchemaLoom
