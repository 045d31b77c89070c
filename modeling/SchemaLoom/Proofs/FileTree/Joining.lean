import SchemaLoom.Proofs.FileTree.Names

/-! Paths that are joined onto each other, and the bytes they have. -/

namespace SchemaLoom

namespace Path

variable {base path name other : Path}

theorem byteSize_append (base path : Path) :
    byteSize (base ++ path) = byteSize base + byteSize path := by
  induction base with
  | nil => simp [byteSize]
  | cons c rest ih =>
    simp only [byteSize, List.cons_append, List.foldr_cons] at ih ⊢
    omega

theorem byteSize_replicate (n : Nat) (c : Char) : byteSize (List.replicate n c) = n * c.utf8Size := by
  induction n with
  | zero => simp [byteSize]
  | succ n ih =>
    rw [List.replicate_succ, Nat.succ_mul, ← ih, Nat.add_comm]
    rfl

theorem byteSize_append_slashes (base : Path) (n : Nat) :
    byteSize (base ++ List.replicate n '/') = byteSize base + n := by
  have hslash : '/'.utf8Size = 1 := by decide
  rw [byteSize_append, byteSize_replicate, hslash, Nat.mul_one]

theorem byteSize_le_of_sublist (h : base.Sublist path) : byteSize base ≤ byteSize path := by
  induction h with
  | slnil => exact Nat.le_refl _
  | cons c _ ih =>
    simp only [byteSize, List.foldr_cons] at ih ⊢
    omega
  | cons_cons c _ ih =>
    simp only [byteSize, List.foldr_cons] at ih ⊢
    omega

theorem isTooLong_of_sublist (h : base.Sublist path) (hlong : isTooLong base = true) :
    isTooLong path = true := by
  have hle := byteSize_le_of_sublist h
  simp only [isTooLong, decide_eq_true_eq] at hlong ⊢
  omega

theorem isTooLong_eq_false_of_sublist (h : base.Sublist path) (hshort : isTooLong path = false) :
    isTooLong base = false :=
  Bool.eq_false_iff.mpr fun hlong => by simp [isTooLong_of_sublist h hlong] at hshort

/-- What comes between a path and another one that is joined onto it. -/
def separator (base : Path) : Path :=
  if base.isEmpty || base.getLast? = some '/' then [] else ['/']

theorem join_of_relative (h : path.head? ≠ some '/') (base : Path) :
    join base path = base ++ (separator base ++ path) := by
  rw [join, if_neg h, separator]
  split <;> simp

theorem prefix_join (h : path.head? ≠ some '/') (base : Path) : base <+: join base path := by
  rw [join_of_relative h]
  exact List.prefix_append _ _

theorem sublist_join (base path : Path) : path.Sublist (join base path) := by
  by_cases habsolute : path.head? = some '/'
  · rw [join, if_pos habsolute]
  · rw [join_of_relative habsolute, ← List.append_assoc]
    exact List.sublist_append_right ..

theorem mem_or_mem_of_mem_join {c : Char} (hc : c ≠ '/') (h : c ∈ join base path) :
    c ∈ base ∨ c ∈ path := by
  unfold join at h
  split at h
  · exact .inr h
  split at h
  · simpa using h
  · simpa [hc] using h

theorem mem_or_mem_of_mem_joinNonempty {c : Char} (hc : c ≠ '/') (h : c ∈ joinNonempty base path) :
    c ∈ base ∨ c ∈ path := by
  unfold joinNonempty at h
  split at h
  · simpa using h
  · exact mem_or_mem_of_mem_join hc h

@[simp] theorem join_nil_left (path : Path) : join [] path = path := by
  simp [join]

theorem joinNonempty_eq_join (h : path ≠ []) (base : Path) :
    joinNonempty base path = join base path := by
  by_cases hbase : base = [] <;> simp [joinNonempty, h, hbase]

@[simp] theorem joinNonempty_nil_left (path : Path) : joinNonempty [] path = path := by
  simp [joinNonempty]

@[simp] theorem joinNonempty_nil_right (base : Path) : joinNonempty base [] = base := by
  simp [joinNonempty]

theorem join_ne_nil (h : path ≠ []) (base : Path) : join base path ≠ [] := by
  unfold join
  split
  · exact h
  split <;> simp [h]

theorem joinNonempty_ne_nil (h : base ≠ []) (path : Path) : joinNonempty base path ≠ [] := by
  by_cases hpath : path = []
  · simpa [hpath] using h
  · rw [joinNonempty_eq_join hpath]
    exact join_ne_nil hpath base

theorem head?_join (hpath : path.head? ≠ some '/') (hbase : base.head? ≠ some '/') :
    (join base path).head? ≠ some '/' := by
  rw [join_of_relative hpath]
  cases base with
  | nil => simpa [separator] using hpath
  | cons c rest => simpa using hbase

theorem separator_append (hpath : path ≠ []) (base : Path) :
    separator (base ++ path) = separator path := by
  have hlast : (base ++ path).getLast? = path.getLast? := by
    cases hp : path.getLast? with
    | none => exact absurd (List.getLast?_eq_none_iff.mp hp) hpath
    | some c => simp [hp]
  simp [separator, hlast, hpath]

theorem separator_append_separator (base : Path) : separator (base ++ separator base) = [] := by
  by_cases hends : base.isEmpty || base.getLast? = some '/'
  · have hnone : separator base = [] := by rw [separator, if_pos hends]
    rw [hnone, List.append_nil, hnone]
  · rw [show separator base = ['/'] by rw [separator, if_neg hends],
      separator_append (List.cons_ne_nil _ _)]
    rfl

theorem join_assoc (hpath : path.head? ≠ some '/') (hname : name.head? ≠ some '/') (base : Path) :
    join base (join path name) = join (join base path) name := by
  rw [join_of_relative (head?_join hname hpath), join_of_relative hname, join_of_relative hname,
    join_of_relative hpath]
  by_cases hnil : path = []
  · subst hnil
    simp [separator_append_separator, show separator [] = [] from rfl]
  · have hseparator : separator (base ++ (separator base ++ path)) = separator path := by
      rw [← List.append_assoc, separator_append hnil]
    simp [hseparator]

theorem joinNonempty_assoc (hpath : path.head? ≠ some '/') (hname : name.head? ≠ some '/')
    (base : Path) :
    joinNonempty (joinNonempty base path) name = joinNonempty base (joinNonempty path name) := by
  by_cases hp : path = []
  · simp [hp]
  by_cases hn : name = []
  · simp [hn]
  rw [joinNonempty_eq_join hp, joinNonempty_eq_join hn, joinNonempty_eq_join hn,
    joinNonempty_eq_join (join_ne_nil hn path), join_assoc hpath hname]

theorem head?_joinNonempty (hpath : path.head? ≠ some '/') (hbase : base.head? ≠ some '/') :
    (joinNonempty base path).head? ≠ some '/' := by
  by_cases hp : path = []
  · simpa [hp] using hbase
  · rw [joinNonempty_eq_join hp]
    exact head?_join hpath hbase

theorem prefix_joinNonempty (hpath : path.head? ≠ some '/') (base : Path) :
    base <+: joinNonempty base path := by
  by_cases hp : path = []
  · simp [hp]
  · rw [joinNonempty_eq_join hp]
    exact prefix_join hpath base

theorem sublist_joinNonempty (base path : Path) : path.Sublist (joinNonempty base path) := by
  by_cases hp : path = []
  · rw [hp]
    exact List.nil_sublist _
  · rw [joinNonempty_eq_join hp]
    exact sublist_join base path

theorem byteSize_lt_joinNonempty (hne : path ≠ []) (hpath : path.head? ≠ some '/') (base : Path) :
    byteSize base < byteSize (joinNonempty base path) := by
  obtain ⟨c, rest, rfl⟩ := List.exists_cons_of_ne_nil hne
  have hc : 0 < byteSize (c :: rest) := Nat.add_pos_left c.utf8Size_pos _
  rw [joinNonempty_eq_join hne, join_of_relative hpath, byteSize_append, byteSize_append]
  omega

theorem join_join (h : name.head? ≠ some '/') (base path : Path) :
    join base (join path name) = join (joinNonempty base path) name := by
  by_cases hpath : path = []
  · simp [hpath]
  rw [joinNonempty_eq_join hpath]
  by_cases habsolute : path.head? = some '/'
  · obtain ⟨c, rest, rfl⟩ := List.exists_cons_of_ne_nil hpath
    have hjoin : (join (c :: rest) name).head? = some '/' := by
      rw [join_of_relative h]
      simpa using habsolute
    rw [join, if_pos hjoin, show join base (c :: rest) = c :: rest by rw [join, if_pos habsolute]]
  · exact join_assoc habsolute h base

theorem getLast?_join (h : path ≠ []) (base : Path) :
    (join base path).getLast? = path.getLast? := by
  cases hlast : path.getLast? with
  | none => exact absurd (List.getLast?_eq_none_iff.mp hlast) h
  | some c =>
    unfold join
    split
    · exact hlast
    split <;> simp [List.getLast?_cons, hlast]

theorem getLast?_join_nil (h : base ≠ []) : (join base []).getLast? = some '/' := by
  by_cases hlast : base.getLast? = some '/' <;> simp [join, h, hlast]

theorem join_append (hpath : path ≠ []) (base rest : Path) :
    join base (path ++ rest) = join base path ++ rest := by
  obtain ⟨c, cs, rfl⟩ := List.exists_cons_of_ne_nil hpath
  by_cases hc : c = '/'
  · simp [join, hc]
  · by_cases hbase : base = [] ∨ base.getLast? = some '/' <;> simp [join, hc, hbase]

/-- A path without a last name is its first part with slashes at the end, if it has more than slashes.
-/
theorem exists_slashes (hname : (split path).2 = []) (hne : path ≠ []) :
    (split path).1 ≠ [] ∧ ∃ n, path = (split path).1 ++ List.replicate n '/' ∧
      (n = 0 → path.head? = some '/') := by
  have hfirst : (split path).1 ≠ [] := fun hfirst => by
    rw [split_eq_of_fst_nil hfirst] at hname
    exact hne hname
  refine ⟨hfirst, ?_⟩
  obtain ⟨-, hsplit⟩ | ⟨base, name, hpath, hsplit⟩ := split_cases path
  · rw [hsplit] at hfirst
    exact absurd rfl hfirst
  · obtain rfl : name = [] := by rwa [hsplit] at hname
    rw [hsplit, hpath]
    dsimp only
    split
    · rename_i hall
      refine ⟨0, by simp, fun _ => ?_⟩
      cases base with
      | nil => rfl
      | cons c rest => simpa using (List.all_eq_true.mp hall c (List.mem_cons_self ..))
    · have htail : base.rtakeWhile (· == '/') =
          List.replicate (base.rtakeWhile (· == '/')).length '/' :=
        List.eq_replicate_iff.mpr ⟨rfl, fun c hc => by simpa using List.mem_rtakeWhile_imp hc⟩
      have hparts : base = trimSlashes base ++ base.rtakeWhile (· == '/') :=
        (List.rdropWhile_append_rtakeWhile ..).symm
      refine ⟨(base.rtakeWhile (· == '/')).length + 1, ?_, by simp⟩
      rw [List.replicate_succ', ← List.append_assoc, ← htail, ← hparts]

end Path

end SchemaLoom
