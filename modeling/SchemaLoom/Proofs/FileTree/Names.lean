import Mathlib.Data.List.DropRight
import SchemaLoom.FileTree.Glob

/-! The names that stand between the slashes of a path. Going on from a path adds its names, and
taking a path apart loses none. -/

namespace SchemaLoom

namespace Path

theorem components_eq_splitOn (path : Path) : components path = path.splitOn '/' := by
  induction path with
  | nil => rfl
  | cons c rest ih =>
    obtain ⟨part, parts, hparts⟩ := List.exists_cons_of_ne_nil (List.splitOn_ne_nil '/' rest)
    rw [components, ih, hparts, List.splitOn_cons_eq_if_modifyHead, hparts]
    by_cases hc : c = '/' <;> simp [hc]

theorem components_ne_nil (path : Path) : components path ≠ [] := by
  rw [components_eq_splitOn]
  exact List.splitOn_ne_nil '/' path

theorem slash_notMem_of_mem_components {path part : Path} (h : part ∈ components path) :
    '/' ∉ part := by
  induction path generalizing part with
  | nil =>
    obtain rfl : part = [] := by simpa [components] using h
    simp
  | cons c rest ih =>
    cases hrest : components rest with
    | nil => simp [components_eq_splitOn, List.splitOn_ne_nil] at hrest
    | cons first parts =>
      rw [hrest] at ih
      have hfirst : '/' ∉ first := ih (List.mem_cons_self ..)
      by_cases hc : c = '/'
      · simp only [components, hrest, hc, if_true, List.mem_cons] at h
        rcases h with rfl | h
        · simp
        · exact ih (List.mem_cons.mpr h)
      · simp only [components, hrest, hc, if_false, List.mem_cons] at h
        rcases h with rfl | h
        · simpa [hfirst] using Ne.symm hc
        · exact ih (List.mem_cons_of_mem _ h)

/-- The names in a path, in their order. -/
def names (path : Path) : List Path := (components path).filter (!·.isEmpty)

variable {path name base : Path}

@[simp] theorem names_nil : names [] = [] := rfl

theorem components_append_slash (path rest : Path) :
    components (path ++ '/' :: rest) = components path ++ components rest := by
  simp only [components_eq_splitOn]
  exact List.splitOnP_append_cons path rest (beq_self_eq_true '/')

theorem names_append_slash (path rest : Path) :
    names (path ++ '/' :: rest) = names path ++ names rest := by
  rw [names, components_append_slash, List.filter_append, names, names]

theorem names_eq_self (h : '/' ∉ name) (hne : name ≠ []) : names name = [name] := by
  rw [names, components_eq_splitOn, List.splitOn_eq_singleton h]
  simp [hne]

theorem slash_notMem_of_mem_names {part : Path} (h : part ∈ names path) : '/' ∉ part :=
  slash_notMem_of_mem_components (List.mem_of_mem_filter h)

theorem ne_nil_of_mem_names {part : Path} (h : part ∈ names path) : part ≠ [] := by
  simpa using (List.mem_filter.mp h).2

theorem names_join (base : Path) (h : path.head? ≠ some '/') :
    names (join base path) = names base ++ names path := by
  unfold join
  rw [if_neg h]
  by_cases hbase : base = []
  · simp [hbase]
  by_cases hlast : base.getLast? = some '/'
  · obtain ⟨before, rfl⟩ := List.getLast?_eq_some_iff.mp hlast
    have hbefore : names (before ++ ['/']) = names before := by simp [names_append_slash]
    rw [if_pos (by simp), List.append_assoc, List.singleton_append, names_append_slash, hbefore]
  · rw [if_neg (by simp [hbase, hlast]), names_append_slash]

/-- What goes on from a path is known from where it ends, absolute paths apart. -/
theorem eq_of_join_eq {other : Path} (h : path.head? = some '/' ↔ other.head? = some '/')
    (heq : join base path = join base other) : path = other := by
  unfold join at heq
  by_cases habsolute : path.head? = some '/'
  · simpa [habsolute, h.mp habsolute] using heq
  · have hrelative : other.head? ≠ some '/' := fun hother => habsolute (h.mpr hother)
    rw [if_neg habsolute, if_neg hrelative] at heq
    split at heq
    · exact List.append_cancel_left heq
    · exact (List.cons.inj (List.append_cancel_left heq)).2

/-- A path without redundant slashes, which its names determine. -/
def IsPlain (path : Path) : Prop := List.intercalate ['/'] (names path) = path

theorem isPlain_nil : IsPlain [] := rfl

theorem isPlain_name (h : '/' ∉ name) (hne : name ≠ []) : IsPlain name := by
  simp [IsPlain, names_eq_self h hne]

theorem IsPlain.eq_of_names_eq {other : Path} (h : path.IsPlain) (hother : other.IsPlain)
    (heq : names path = names other) : path = other := by
  rw [← h, heq, hother]

theorem IsPlain.names_ne_nil (h : path.IsPlain) (hne : path ≠ []) : names path ≠ [] := fun hnil =>
  hne (h.eq_of_names_eq isPlain_nil hnil)

theorem IsPlain.head?_ne (h : path.IsPlain) : path.head? ≠ some '/' := by
  rw [← h]
  cases hnames : names path with
  | nil => simp
  | cons first rest =>
    have hfirst : first ∈ names path := hnames ▸ List.mem_cons_self ..
    obtain ⟨c, cs, rfl⟩ := List.exists_cons_of_ne_nil (ne_nil_of_mem_names hfirst)
    have hc : c ≠ '/' := fun hc => slash_notMem_of_mem_names hfirst (hc ▸ List.mem_cons_self ..)
    cases rest <;> simpa [List.intercalate_cons_cons] using hc

section Join

variable (h : '/' ∉ name) (hne : name ≠ []) (hpath : path.IsPlain)
include h hne hpath

theorem names_joinNonempty : names (joinNonempty name path) = name :: names path := by
  have hname : name.isEmpty = false := by simpa using hne
  by_cases hnil : path = []
  · simp [joinNonempty, hnil, names_eq_self h hne]
  · simp [joinNonempty, hname, hnil, names_join name hpath.head?_ne, names_eq_self h hne]

theorem isPlain_joinNonempty : IsPlain (joinNonempty name path) := by
  have hname : name.isEmpty = false := by simpa using hne
  have hlast : name.getLast? ≠ some '/' := fun hlast => h (List.mem_of_getLast? hlast)
  rw [IsPlain, names_joinNonempty h hne hpath]
  by_cases hnil : path = []
  · simp [joinNonempty, hnil]
  · rw [List.intercalate_cons_of_ne_nil (hpath.names_ne_nil hnil), hpath]
    simp [joinNonempty, join, hname, hnil, hpath.head?_ne, hlast]

end Join

theorem trimSlashes_concat (path : Path) : trimSlashes (path ++ ['/']) = trimSlashes path := by
  simp [trimSlashes]

theorem trimSlashes_prefix (path : Path) : trimSlashes path <+: path :=
  List.rdropWhile_prefix (· == '/') path

theorem trimSlashes_ne_nil (h : path.all (· == '/') = false) : trimSlashes path ≠ [] := by
  intro hnil
  have hall := List.dropWhile_eq_nil_iff.mp (List.reverse_eq_nil_iff.mp hnil)
  simp only [List.mem_reverse] at hall
  rw [List.all_eq_true.mpr hall] at h
  cases h

theorem names_trimSlashes (path : Path) : names (trimSlashes path) = names path := by
  induction path using List.reverseRecOn with
  | nil => rfl
  | append_singleton path c ih =>
    by_cases hc : c = '/'
    · rw [hc, trimSlashes_concat, ih, names_append_slash, names_nil, List.append_nil]
    · simp [trimSlashes, hc]

/-- A path is cut after its last slash, if it has one. -/
theorem cut_cases (path : Path) :
    '/' ∉ path ∧ cut path = ([], path) ∨
      ∃ base name, path = base ++ '/' :: name ∧ '/' ∉ name ∧ cut path = (base ++ ['/'], name) := by
  have hsplit : path = path.rdropWhile (· != '/') ++ path.rtakeWhile (· != '/') := by
    simp [List.rdropWhile, List.rtakeWhile, ← List.reverse_append]
  have htail : '/' ∉ path.rtakeWhile (· != '/') := fun hm => by
    simpa using List.mem_rtakeWhile_imp hm
  have hcut : cut path = (path.rdropWhile (· != '/'), path.rtakeWhile (· != '/')) := by
    refine Prod.ext ?_ rfl
    have hlen := congrArg List.length hsplit
    rw [List.length_append] at hlen
    change path.take (path.length - (path.rtakeWhile (· != '/')).length) = _
    rw [hlen, Nat.add_sub_cancel]
    exact (List.prefix_iff_eq_take.mp (List.rdropWhile_prefix _ path)).symm
  by_cases hnil : path.rdropWhile (· != '/') = []
  · rw [hnil, List.nil_append] at hsplit
    exact .inl ⟨hsplit ▸ htail, by rw [hcut, hnil, ← hsplit]⟩
  · have hlast : (path.rdropWhile (· != '/')).getLast hnil = '/' := by
      simpa using List.rdropWhile_last_not (· != '/') path hnil
    have hhead := List.dropLast_append_getLast hnil
    rw [hlast] at hhead
    refine .inr ⟨(path.rdropWhile (· != '/')).dropLast, path.rtakeWhile (· != '/'), ?_, htail, ?_⟩
    · rw [List.append_cons, hhead]
      exact hsplit
    · rw [hcut, hhead]

theorem slash_notMem_split (path : Path) : '/' ∉ (split path).2 := by
  change '/' ∉ (cut path).2
  obtain ⟨h, hcut⟩ | ⟨base, name, -, h, hcut⟩ := cut_cases path
  · rwa [hcut]
  · rwa [hcut]

theorem split_cases (path : Path) :
    '/' ∉ path ∧ split path = ([], path) ∨
      ∃ base name, path = base ++ '/' :: name ∧ split path =
        (if base.all (· == '/') then base ++ ['/'] else trimSlashes base, name) := by
  obtain ⟨h, hcut⟩ | ⟨base, name, hpath, -, hcut⟩ := cut_cases path
  · exact .inl ⟨h, by simp [split, hcut]⟩
  · exact .inr ⟨base, name, hpath, by simp [split, hcut, trimSlashes_concat]⟩

theorem split_fst_isPrefix (path : Path) : (split path).1 <+: path := by
  obtain ⟨-, hsplit⟩ | ⟨base, name, hpath, hsplit⟩ := split_cases path
  · rw [hsplit]
    exact List.nil_prefix
  · rw [hsplit, hpath]
    dsimp only
    split
    · exact ⟨name, by simp⟩
    · have htrim := trimSlashes_prefix base
      exact htrim.trans (List.prefix_append ..)

/-- A path without a first part is a single name. -/
theorem split_eq_of_fst_nil (h : (split path).1 = []) : split path = ([], path) := by
  obtain ⟨-, hsplit⟩ | ⟨base, name, -, hsplit⟩ := split_cases path
  · exact hsplit
  · rw [hsplit] at h
    dsimp only at h
    cases hall : base.all (· == '/') with
    | true => simp [hall] at h
    | false =>
      rw [hall, if_neg (by simp)] at h
      exact absurd h (trimSlashes_ne_nil hall)

theorem names_split (path : Path) : names path = names (split path).1 ++ names (split path).2 := by
  obtain ⟨-, hsplit⟩ | ⟨base, name, hpath, hsplit⟩ := split_cases path
  · simp [hsplit]
  · rw [hsplit]
    dsimp only
    split
    · simp [hpath, names_append_slash]
    · rw [names_trimSlashes, hpath, names_append_slash]

theorem head?_split (path : Path) :
    (split path).1.head? = some '/' ↔ path.head? = some '/' := by
  obtain ⟨h, hsplit⟩ | ⟨base, name, rfl, hsplit⟩ := split_cases path
  · rw [hsplit]
    refine ⟨fun hnil => by simp at hnil, fun hhead => absurd (List.mem_of_head? hhead) h⟩
  · rw [hsplit]
    dsimp only
    cases hall : base.all (· == '/') with
    | true => cases base <;> simp
    | false =>
      have hprefix := trimSlashes_prefix base
      obtain ⟨c, rest, htrim⟩ := List.exists_cons_of_ne_nil (trimSlashes_ne_nil hall)
      rw [htrim] at hprefix
      rw [if_neg (by simp), htrim]
      obtain ⟨more, rfl⟩ := hprefix
      simp

theorem split_ne_self (h : hasMagic path = true) : (split path).1 ≠ path := by
  obtain ⟨-, hsplit⟩ | ⟨base, name, rfl, hsplit⟩ := split_cases path
  · rw [hsplit]
    intro hnil
    rw [← hnil] at h
    cases h
  · rw [hsplit]
    intro heq
    dsimp only at heq
    cases hall : base.all (· == '/') with
    | true =>
      obtain rfl : [] = name := by simpa [hall] using heq
      have hplain : (base ++ ['/']).all (· == '/') = true := by simpa using hall
      obtain ⟨c, hc, hmagic⟩ := List.any_eq_true.mp h
      have hslash : c = '/' := by simpa using List.all_eq_true.mp hplain c hc
      rw [hslash] at hmagic
      cases hmagic
    | false =>
      have hshort := length_trimSlashes_le base
      rw [hall, if_neg (by simp)] at heq
      rw [heq, List.length_append, List.length_cons] at hshort
      omega

end Path

end SchemaLoom
