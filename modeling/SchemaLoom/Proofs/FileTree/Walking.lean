import SchemaLoom.Proofs.FileTree.Joining
import SchemaLoom.Proofs.Results

/-! Where paths lead. A path that is joined onto a directory leads to where the path alone leads from
that directory, unless that gets it out of reach: it may be too long, or have too many links on the
way. -/

namespace SchemaLoom

namespace FileTree

section Walk

variable {root : FileNode} {follows : Bool} {links : Nat} {place next : Spot} {name target : Path}
  {names rest : List Path} {stop : Nat × Spot} {fault : PathFault}

theorem walk_cons_of_error (h : walkStep place name = .error fault) :
    walk root follows links place (name :: rest) = .error fault := by
  rw [walk, h]

theorem walk_cons_of_node (h : walkStep place name = .ok next) (hnode : next.here.target? = none) :
    walk root follows links place (name :: rest) = walk root follows links next rest := by
  rw [walk, h]
  simp only [hnode]

/-- A link is followed on the way to a further name, or if links are followed in the last place too. -/
theorem walk_cons_of_link (h : walkStep place name = .ok next)
    (hlink : next.here.target? = some target) (hon : ¬(!follows && rest.isEmpty) = true) :
    walk root follows links place (name :: rest) =
      if links = 0 then .error .tooManyLinks
      else walk root follows (links - 1) (origin root place target)
        (Path.components target ++ rest) := by
  rw [walk, h]
  simp only [hlink, if_neg hon]
  cases links <;> simp

theorem walk_last_link (h : walkStep place name = .ok next)
    (hlink : next.here.target? = some target) :
    walk root false links place [name] = .ok (links, next) := by
  rw [walk, h]
  simp [hlink]

/-- The way to the first names leads on to others, so all links on it are followed. -/
theorem walk_append {others : List Path} (hne : others ≠ []) (root : FileNode) (follows : Bool)
    (links : Nat) (place : Spot) (names : List Path) :
    walk root follows links place (names ++ others) =
      walk root true links place names >>= fun stop => walk root follows stop.1 stop.2 others := by
  have hon : ∀ rest : List Path, ¬(!follows && (rest ++ others).isEmpty) = true := by simp [hne]
  fun_induction walk root true links place names with
  | case1 links place => rfl
  | case2 links place name rest fault hstep =>
    exact walk_cons_of_error hstep
  | case3 links place name rest next hstep hnode ih =>
    rw [List.cons_append, walk_cons_of_node hstep hnode, ih]
  | case4 links place name rest next hstep target hlink hlast =>
    simp at hlast
  | case5 place name rest next hstep target hlink _ =>
    rw [List.cons_append, walk_cons_of_link hstep hlink (hon rest)]
    rfl
  | case6 place name rest next hstep target hlink _ links ih =>
    rw [List.cons_append, walk_cons_of_link hstep hlink (hon rest), ← List.append_assoc]
    exact ih

theorem walkStep_nil (place : Spot) :
    walkStep place [] = if place.here.isDirectory then .ok place else .error .notDirectory := by
  unfold walkStep
  cases place.here.isDirectory <;> rfl

/-- An empty name leads nowhere else, but only a directory can be asked for any name. -/
theorem walk_nil_cons (hne : names ≠ []) (root : FileNode) (follows : Bool) (links : Nat)
    (place : Spot) :
    walk root follows links place ([] :: names) = walk root follows links place names := by
  obtain ⟨name, rest, rfl⟩ := List.exists_cons_of_ne_nil hne
  cases hdirectory : place.here.isDirectory with
  | true =>
    have hstep : walkStep place [] = .ok place := by rw [walkStep_nil, hdirectory, if_pos rfl]
    exact walk_cons_of_node hstep (FileNode.target?_of_isDirectory hdirectory)
  | false =>
    have hstep : ∀ name, walkStep place name = .error .notDirectory := fun name => by
      simp [walkStep, hdirectory]
    rw [walk_cons_of_error (hstep []), walk_cons_of_error (hstep name)]

theorem walk_components_join {base path : Path} (h : path.head? ≠ some '/') (root : FileNode)
    (follows : Bool) (links : Nat) (place : Spot) :
    walk root follows links place (Path.components (Path.join base path)) =
      walk root true links place (Path.components base) >>= fun stop =>
        walk root follows stop.1 stop.2 (Path.components path) := by
  have hne := Path.components_ne_nil path
  rw [← walk_append hne]
  by_cases hnil : base = []
  · rw [hnil, Path.join_nil_left]
    exact (walk_nil_cons hne root follows links place).symm
  by_cases hlast : base.getLast? = some '/'
  · obtain ⟨before, rfl⟩ := List.getLast?_eq_some_iff.mp hlast
    have hjoin : Path.join (before ++ ['/']) path = before ++ '/' :: path := by
      simp [Path.join, h]
    rw [hjoin, Path.components_append_slash, Path.components_append_slash, List.append_assoc,
      walk_append hne,
      walk_append (List.append_ne_nil_of_right_ne_nil _ hne)]
    exact bind_congr fun stop => (walk_nil_cons hne root follows stop.1 stop.2).symm
  · have hjoin : Path.join base path = base ++ '/' :: path := by
      simp [Path.join, h, hnil, hlast]
    rw [hjoin, Path.components_append_slash]

/-- Each link followed is counted, so it makes no difference how many more might be followed. -/
theorem walk_add (root : FileNode) (follows : Bool) (links : Nat) (place : Spot)
    (names : List Path) (more : Nat) :
    walk root follows links place names = .error .tooManyLinks ∨
      walk root follows (links + more) place names =
        (walk root follows links place names).map fun stop => (stop.1 + more, stop.2) := by
  fun_induction walk root follows links place names with
  | case1 links place => exact .inr (by rw [walk]; rfl)
  | case2 links place name rest fault hstep =>
    exact .inr (by rw [walk_cons_of_error hstep]; rfl)
  | case3 links place name rest next hstep hnode ih =>
    rw [walk_cons_of_node hstep hnode]
    exact ih
  | case4 links place name rest next hstep target hlink hlast =>
    obtain ⟨rfl, rfl⟩ : follows = false ∧ rest = [] := by simpa using hlast
    exact .inr (walk_last_link hstep hlink)
  | case5 place name rest next hstep target hlink hon => exact .inl rfl
  | case6 place name rest next hstep target hlink hon links ih =>
    rw [walk_cons_of_link hstep hlink hon, if_neg (by omega),
      show links.succ + more - 1 = links + more by omega]
    exact ih

theorem links_le (h : walk root follows links place names = .ok stop) : stop.1 ≤ links := by
  fun_induction walk root follows links place names with
  | case1 links place =>
    obtain rfl := Except.ok.inj h
    exact Nat.le_refl _
  | case2 _ _ _ _ _ _ => cases h
  | case3 _ _ _ _ _ _ _ ih => exact ih h
  | case4 links place name rest next _ _ _ _ =>
    obtain rfl := Except.ok.inj h
    exact Nat.le_refl _
  | case5 _ _ _ _ _ _ _ _ => cases h
  | case6 _ _ _ _ _ _ _ _ links ih => exact Nat.le_succ_of_le (ih h)

/-- Whatever keeps a link itself from being reached keeps what is behind it from being reached. -/
theorem walk_follows_of_error (h : walk root false links place names = .error fault) :
    walk root true links place names = .error fault := by
  have hon : ∀ rest : List Path, ¬(!true && rest.isEmpty) = true := by simp
  fun_induction walk root false links place names with
  | case1 _ _ => cases h
  | case2 links place name rest own hstep =>
    rw [walk_cons_of_error hstep, ← h]
  | case3 links place name rest next hstep hnode ih =>
    rw [walk_cons_of_node hstep hnode]
    exact ih h
  | case4 _ _ _ _ _ _ _ _ _ => cases h
  | case5 place name rest next hstep target hlink _ =>
    rw [walk_cons_of_link hstep hlink (hon rest), ← h]
    rfl
  | case6 place name rest next hstep target hlink _ links ih =>
    rw [walk_cons_of_link hstep hlink (hon rest), if_neg (by omega)]
    exact ih h

/-- Along one path no more links can be followed than if each name is a path of its own. -/
theorem enter_of_walk (hle : links ≤ maxLinks) (h : walk root true links place names = .ok stop) :
    enter root place names = .ok stop.2 := by
  induction names generalizing links place with
  | nil =>
    rw [walk] at h
    obtain rfl := Except.ok.inj h
    rfl
  | cons name rest ih =>
    obtain ⟨first, hfirst, hrest⟩ : ∃ first, walk root true links place [name] = .ok first ∧
        walk root true first.1 first.2 rest = .ok stop := by
      by_cases hnil : rest = []
      · subst hnil
        exact ⟨stop, h, by rw [walk]⟩
      · rw [← List.singleton_append, walk_append hnil] at h
        exact exists_of_bind_eq_ok h
    have hown : walk root true maxLinks place [name] =
        .ok (first.1 + (maxLinks - links), first.2) := by
      have hadd := walk_add root true links place [name] (maxLinks - links)
      rw [hfirst, Nat.add_sub_cancel' hle] at hadd
      exact hadd.resolve_left (by simp)
    rw [enter, hown]
    exact ih ((links_le hfirst).trans hle) hrest

theorem enter_append (root : FileNode) (place : Spot) (names others : List Path) :
    enter root place (names ++ others) =
      enter root place names >>= fun next => enter root next others := by
  induction names generalizing place with
  | nil => rfl
  | cons name rest ih =>
    rw [List.cons_append, enter, enter, bind_assoc]
    exact bind_congr fun stop => ih stop.2

end Walk

/-- The tree with another directory as the one where relative paths begin. -/
def moveTo (tree : FileTree) (directory : Path) : FileTree :=
  { tree with
    workdir :=
      if directory.head? = some '/' then Path.components directory
      else tree.workdir ++ Path.components directory }

/-- What cannot be asked for, however many files there are: a path that is too long, or that has too
many links on the way. -/
def IsOutOfReach (tree : FileTree) (follows : Bool) (path : Path) : Prop :=
  Path.isTooLong path = true ∨ tree.arrive follows path = .error .tooManyLinks

variable {tree : FileTree} {follows : Bool} {base path : Path} {stop : Nat × Spot}

theorem arrive_join (h : path.head? ≠ some '/') (tree : FileTree) (follows : Bool) (base : Path) :
    tree.arrive follows (Path.join base path) =
      tree.arrive true base >>= fun stop =>
        walk tree.root follows stop.1 stop.2 (Path.components path) := by
  have hhead : (Path.join base path).head? = some '/' ↔ base.head? = some '/' := by
    rw [Path.join_of_relative h]
    cases base with
    | nil => simpa [Path.separator] using h
    | cons c rest => simp
  have hstart : tree.start (Path.join base path) = tree.start base := by
    simp only [start, hhead]
  rw [arrive, arrive, hstart, bind_assoc]
  exact bind_congr fun place => walk_components_join h tree.root follows maxLinks place

theorem start_moveTo (harrive : tree.arrive true base = .ok stop) (h : path.head? ≠ some '/') :
    (tree.moveTo base).start path = .ok stop.2 := by
  obtain ⟨begun, hbegun, hwalk⟩ := exists_of_bind_eq_ok harrive
  have henter := enter_of_walk (Nat.le_refl _) hwalk
  rw [start, if_neg h, moveTo]
  by_cases hbase : base.head? = some '/'
  · rw [start, if_pos hbase] at hbegun
    obtain rfl := Except.ok.inj hbegun
    rw [if_pos hbase]
    exact henter
  · rw [start, if_neg hbase] at hbegun
    rw [if_neg hbase, enter_append, hbegun]
    exact henter

theorem arrive_moveTo_of_absolute (h : path.head? = some '/') :
    (tree.moveTo base).arrive follows path = tree.arrive follows (Path.join base path) := by
  rw [Path.join, if_pos h, arrive, arrive, start, start, if_pos h, if_pos h]
  rfl

/-- From a directory a path leads to where it leads once joined onto that directory, if not too many
links have to be followed on the way through it. -/
theorem arrive_moveTo (harrive : tree.arrive true base = .ok stop)
    (hreach : tree.arrive follows (Path.join base path) ≠ .error .tooManyLinks) :
    ((tree.moveTo base).arrive follows path).map Prod.snd =
      (tree.arrive follows (Path.join base path)).map Prod.snd := by
  by_cases habsolute : path.head? = some '/'
  · rw [arrive_moveTo_of_absolute habsolute]
  · rw [arrive_join habsolute, harrive] at hreach ⊢
    have hle : stop.1 ≤ maxLinks := by
      obtain ⟨begun, -, hwalk⟩ := exists_of_bind_eq_ok harrive
      exact links_le hwalk
    have hadd := (walk_add tree.root follows stop.1 stop.2 (Path.components path)
      (maxLinks - stop.1)).resolve_left hreach
    rw [Nat.add_sub_cancel' hle] at hadd
    rw [arrive, start_moveTo harrive habsolute]
    change (walk tree.root follows maxLinks stop.2 (Path.components path)).map Prod.snd =
      (walk tree.root follows stop.1 stop.2 (Path.components path)).map Prod.snd
    rw [hadd]
    cases walk tree.root follows stop.1 stop.2 (Path.components path) <;> rfl

theorem arrive_append_slash (h : base ≠ []) (tree : FileTree) (follows : Bool) (rest : Path) :
    tree.arrive follows (base ++ '/' :: rest) =
      tree.arrive true base >>= fun stop =>
        walk tree.root follows stop.1 stop.2 (Path.components rest) := by
  have hstart : tree.start (base ++ '/' :: rest) = tree.start base := by
    obtain ⟨c, cs, rfl⟩ := List.exists_cons_of_ne_nil h
    simp [start]
  rw [arrive, arrive, hstart, bind_assoc, Path.components_append_slash]
  exact bind_congr fun place => walk_append (Path.components_ne_nil rest) ..

/-- Slashes that end the path of a directory lead nowhere else. -/
theorem arrive_append_slashes (h : base ≠ []) (harrive : tree.arrive true base = .ok stop)
    (hdirectory : stop.2.here.isDirectory = true) (n : Nat) :
    tree.arrive true (base ++ List.replicate n '/') = .ok stop := by
  induction n with
  | zero => simpa using harrive
  | succ n ih =>
    rw [List.replicate_succ', ← List.append_assoc, arrive_append_slash (by simp [h]), ih]
    change walk tree.root true stop.1 stop.2 [[]] = _
    rw [walk_cons_of_node (by rw [walkStep_nil, if_pos hdirectory])
      (FileNode.target?_of_isDirectory hdirectory), walk]

theorem arrive_follows_of_error {fault : PathFault} (h : tree.arrive false path = .error fault) :
    tree.arrive true path = .error fault := by
  rw [arrive] at h ⊢
  cases hstart : tree.start path with
  | error own =>
    rw [hstart] at h
    exact h
  | ok place =>
    rw [hstart] at h
    exact walk_follows_of_error h

theorem arrive_here (tree : FileTree) (follows : Bool) :
    tree.arrive follows ['.'] = tree.arrive follows [] := by
  rw [arrive, arrive]
  refine bind_congr fun place => ?_
  have hcomponents : Path.components ['.'] = [['.']] ∧ Path.components [] = [[]] := by decide
  have hstep : walkStep place ['.'] = walkStep place [] := by simp [walkStep]
  rw [hcomponents.1, hcomponents.2, walk, walk, hstep]

/-- What is behind a link is out of reach if the link is. -/
theorem IsOutOfReach.mono {further : Bool} (h : tree.IsOutOfReach follows path)
    (hfurther : follows = true → further = true) : tree.IsOutOfReach further path := by
  cases follows with
  | true => exact hfurther rfl ▸ h
  | false =>
    cases further with
    | false => exact h
    | true => exact h.imp_right arrive_follows_of_error

/-- What is joined onto a path that is out of reach is out of reach as well. -/
theorem IsOutOfReach.join (h : tree.IsOutOfReach follows base) (hpath : path.head? ≠ some '/')
    (further : Bool) : tree.IsOutOfReach further (Path.join base path) := by
  refine (h.mono fun _ => rfl : tree.IsOutOfReach true base).imp
    (Path.isTooLong_of_sublist (Path.prefix_join hpath base).sublist) fun hlinks => ?_
  rw [arrive_join hpath, hlinks]
  rfl

theorem IsOutOfReach.append_slash (h : tree.IsOutOfReach true base) (hne : base ≠ []) (rest : Path)
    (further : Bool) : tree.IsOutOfReach further (base ++ '/' :: rest) := by
  refine h.imp (Path.isTooLong_of_sublist (List.sublist_append_left ..)) fun hlinks => ?_
  rw [arrive_append_slash hne, hlinks]
  rfl

section Resolve

variable {node : FileNode}

theorem resolve_eq (hnull : '\x00' ∉ path) (hshort : Path.isTooLong path = false) (hne : path ≠ []) :
    tree.resolve follows path = ((tree.arrive follows path).map Prod.snd).map Spot.here := by
  rw [resolve, if_neg (by simpa using hnull), if_neg (by simp [hshort]), if_neg (by simpa using hne)]
  cases tree.arrive follows path <;> rfl

theorem resolve_of_null (h : '\x00' ∈ path) : tree.resolve follows path = .error .nullCharacter := by
  rw [resolve, if_pos (by simpa using h)]

theorem resolve_of_tooLong (hnull : '\x00' ∉ path) (h : Path.isTooLong path = true) :
    tree.resolve follows path = .error .tooLong := by
  rw [resolve, if_neg (by simpa using hnull), if_pos h]

theorem resolve_nil (tree : FileTree) (follows : Bool) :
    tree.resolve follows [] = .error .notFound := by
  rw [resolve, if_neg (by simp), if_neg (by decide)]
  rfl

/-- A path that leads somewhere is one that can be asked for. -/
theorem askable_of_resolve (h : tree.resolve follows path = .ok node) :
    '\x00' ∉ path ∧ Path.isTooLong path = false ∧ path ≠ [] := by
  have hnull : '\x00' ∉ path := fun hnull => by
    rw [resolve_of_null hnull] at h
    cases h
  refine ⟨hnull, ?_, fun hnil => ?_⟩
  · cases hlong : Path.isTooLong path with
    | false => rfl
    | true =>
      rw [resolve_of_tooLong hnull hlong] at h
      cases h
  · rw [hnil, resolve_nil] at h
    cases h

/-- The paths that lead to a place lead to a node, as far as they can be asked for. -/
theorem resolve_of_arrive (h : tree.arrive follows path = .ok stop)
    (hnull : '\x00' ∉ path) (hshort : Path.isTooLong path = false) (hne : path ≠ []) :
    tree.resolve follows path = .ok stop.2.here := by
  rw [resolve_eq hnull hshort hne, h]
  rfl

theorem arrive_of_resolve (h : tree.resolve follows path = .ok node) :
    ∃ stop, tree.arrive follows path = .ok stop ∧ stop.2.here = node := by
  obtain ⟨hnull, hshort, hne⟩ := askable_of_resolve h
  rw [resolve_eq hnull hshort hne] at h
  cases harrive : tree.arrive follows path with
  | error fault =>
    rw [harrive] at h
    cases h
  | ok stop =>
    rw [harrive] at h
    exact ⟨stop, rfl, Except.ok.inj h⟩

theorem reach_of_resolve (h : tree.resolve follows path = .ok node) :
    ¬ tree.IsOutOfReach follows path := by
  obtain ⟨-, hshort, -⟩ := askable_of_resolve h
  obtain ⟨stop, harrive, -⟩ := arrive_of_resolve h
  rintro (hlong | hlinks)
  · rw [hshort] at hlong
    cases hlong
  · rw [harrive] at hlinks
    cases hlinks

/-- Asked for from a directory, a path leads to where it leads once joined onto that directory, if
that does not get it out of reach. -/
theorem resolve_moveTo (hnull : '\x00' ∉ base) (harrive : tree.arrive true base = .ok stop)
    (hne : path ≠ []) (hreach : ¬ tree.IsOutOfReach follows (Path.join base path)) :
    (tree.moveTo base).resolve follows path = tree.resolve follows (Path.join base path) := by
  rw [IsOutOfReach, not_or, Bool.not_eq_true] at hreach
  have hsub := Path.sublist_join base path
  by_cases hown : '\x00' ∈ path
  · rw [resolve_of_null hown, resolve_of_null (hsub.subset hown)]
  · have hjoin : '\x00' ∉ Path.join base path := fun hmem =>
      (Path.mem_or_mem_of_mem_join (by decide) hmem).elim hnull hown
    rw [resolve_eq hown (Path.isTooLong_eq_false_of_sublist hsub hreach.1) hne,
      resolve_eq hjoin hreach.1 (Path.join_ne_nil hne base), arrive_moveTo harrive hreach.2]

/-- What a path leads to from a directory is what it leads to once joined onto that directory. -/
theorem resolve_moveTo_of_resolve_join (hne : path ≠ [])
    (h : tree.resolve follows (Path.join base path) = .ok node) :
    (tree.moveTo base).resolve follows path = .ok node := by
  obtain ⟨hnull, hshort, -⟩ := askable_of_resolve h
  have hsub := Path.sublist_join base path
  have hown : '\x00' ∉ path := fun hmem => hnull (hsub.subset hmem)
  have hownShort := Path.isTooLong_eq_false_of_sublist hsub hshort
  obtain ⟨stop, harrive, rfl⟩ := arrive_of_resolve h
  have hplace : ((tree.moveTo base).arrive follows path).map Prod.snd =
      (tree.arrive follows (Path.join base path)).map Prod.snd := by
    by_cases habsolute : path.head? = some '/'
    · rw [arrive_moveTo_of_absolute habsolute]
    · have hboth := harrive
      rw [arrive_join habsolute] at hboth
      obtain ⟨before, hbefore, -⟩ := exists_of_bind_eq_ok hboth
      exact arrive_moveTo hbefore (by simp [harrive])
  rw [resolve_eq hown hownShort hne, hplace, harrive]
  rfl

end Resolve

section Keeps

variable {holds : FileNode → Prop}
  (hchild : ∀ node child name, holds node → node.child? name = some child → holds child)
include hchild

/-- What holds of a node and of all nodes above it, and goes over to entries, holds after a step. -/
theorem keeps_walkStep {place next : Spot} {name : Path} (htrail : ∀ node ∈ place.trail, holds node)
    (hhere : holds place.here) (h : walkStep place name = .ok next) :
    (∀ node ∈ next.trail, holds node) ∧ holds next.here := by
  unfold walkStep at h
  split at h
  · cases h
  split at h
  · cases h
    exact ⟨htrail, hhere⟩
  split at h
  · split at h
    · cases h
      exact ⟨htrail, hhere⟩
    · rename_i parent above hparts
      cases h
      rw [hparts] at htrail
      exact (List.forall_mem_cons.mp htrail).symm
  split at h
  · cases h
  · split at h
    · rename_i child hfound
      cases h
      exact ⟨List.forall_mem_cons.mpr ⟨hhere, htrail⟩, hchild _ child name hhere hfound⟩
    · cases h

theorem keeps_walk {root : FileNode} (hroot : holds root) {links : Nat} {place : Spot}
    {names : List Path} (htrail : ∀ node ∈ place.trail, holds node) (hhere : holds place.here)
    (h : walk root follows links place names = .ok stop) :
    (∀ node ∈ stop.2.trail, holds node) ∧ holds stop.2.here := by
  fun_induction walk root follows links place names with
  | case1 links place =>
    obtain rfl := Except.ok.inj h
    exact ⟨htrail, hhere⟩
  | case2 _ _ _ _ _ _ => cases h
  | case3 links place name rest next hstep hnode ih =>
    obtain ⟨htrail, hhere⟩ := keeps_walkStep hchild htrail hhere hstep
    exact ih htrail hhere h
  | case4 links place name rest next hstep target hlink hlast =>
    obtain rfl := Except.ok.inj h
    exact keeps_walkStep hchild htrail hhere hstep
  | case5 _ _ _ _ _ _ _ _ => cases h
  | case6 place name rest next hstep target hlink hon links ih =>
    -- The target begins at the root or in the directory that the link is in.
    have horigin : (∀ node ∈ (origin root place target).trail, holds node) ∧
        holds (origin root place target).here := by
      unfold origin
      split
      · exact ⟨by simp, hroot⟩
      · exact ⟨htrail, hhere⟩
    exact ih horigin.1 horigin.2 h

theorem keeps_enter {root : FileNode} (hroot : holds root) {place next : Spot} {names : List Path}
    (htrail : ∀ node ∈ place.trail, holds node) (hhere : holds place.here)
    (h : enter root place names = .ok next) :
    (∀ node ∈ next.trail, holds node) ∧ holds next.here := by
  induction names generalizing place with
  | nil =>
    obtain rfl := Except.ok.inj h
    exact ⟨htrail, hhere⟩
  | cons name rest ih =>
    obtain ⟨first, hfirst, hrest⟩ := exists_of_bind_eq_ok h
    obtain ⟨htrail, hhere⟩ := keeps_walk hchild hroot htrail hhere hfirst
    exact ih htrail hhere hrest

theorem keeps_resolve (hroot : holds tree.root) {node : FileNode}
    (h : tree.resolve follows path = .ok node) : holds node := by
  obtain ⟨stop, harrive, rfl⟩ := arrive_of_resolve h
  obtain ⟨begun, hbegun, hwalk⟩ := exists_of_bind_eq_ok harrive
  have hstart : (∀ node ∈ begun.trail, holds node) ∧ holds begun.here := by
    unfold start at hbegun
    split at hbegun
    · obtain rfl := Except.ok.inj hbegun
      exact ⟨by simp, hroot⟩
    · exact keeps_enter hchild hroot (by simp) hroot hbegun
  exact (keeps_walk hchild hroot hstart.1 hstart.2 hwalk).2

end Keeps

end FileTree

end SchemaLoom
