import Mathlib.Data.List.Induction
import SchemaLoom.Loader
import SchemaLoom.Proofs.Results

/-! Reads that all end. The first that fails in time decides; if none fails, the texts stand in the
places of their paths, in whatever order the reads end. -/

namespace SchemaLoom

/-- The paths in the order in which their reads end. -/
def pathsInTime (order : List Nat) (paths : List String) : List String :=
  order.filterMap (paths[·]?)

theorem pathsInTime_concat (order : List Nat) (index : Nat) (paths : List String) :
    pathsInTime (order ++ [index]) paths = pathsInTime order paths ++ (paths[index]?).toList := by
  cases h : paths[index]? <;> simp [pathsInTime, h]

theorem mem_of_mem_pathsInTime {order : List Nat} {paths : List String} {path : String}
    (h : path ∈ pathsInTime order paths) : path ∈ paths := by
  obtain ⟨index, -, hget⟩ := List.mem_filterMap.mp h
  exact List.mem_of_getElem? hget

/-- The texts of the files whose reads have ended, if they can all be read. -/
def textsAfter (tree : FileTree) (order : List Nat) (paths : List String) :
    List (Option String) :=
  paths.mapIdx fun i path => if i ∈ order then (tree.read path.toList).toOption else none

namespace ReadBatch

variable {tree : FileTree} {paths : List String} {order : List Nat}

theorem run_concat (events : List ReadEvent) (event : ReadEvent) :
    run tree paths (events ++ [event]) = step tree paths (run tree paths events) event := by
  rw [run, List.foldl_append]
  rfl

theorem step_of_failure {b : ReadBatch} {failure : Failure} (h : b.failure = some failure)
    (event : ReadEvent) : step tree paths b event = b := by
  have hover : b.isOver = true := by simp [isOver, h]
  rw [step, if_pos hover]

/-- If all texts are there, every read has ended. -/
theorem mem_of_all_isSome (h : (textsAfter tree order paths).all Option.isSome = true) {index : Nat}
    (hindex : index < paths.length) : index ∈ order := by
  have hsome := List.all_eq_true.mp h _ (List.mem_of_getElem?
    (List.getElem?_mapIdx.trans (congrArg _ (List.getElem?_eq_getElem hindex))))
  by_contra hnot
  simp [hnot] at hsome

theorem textsAfter_concat_of_mem {index : Nat} (h : index < paths.length → index ∈ order) :
    textsAfter tree (order ++ [index]) paths = textsAfter tree order paths := by
  refine List.ext_getElem? fun i => ?_
  rw [textsAfter, textsAfter, List.getElem?_mapIdx, List.getElem?_mapIdx]
  cases hi : paths[i]? with
  | none => rfl
  | some path =>
    have hlt : i < paths.length := (List.getElem?_eq_some_iff.mp hi).1
    have hmem : i ∈ order ++ [index] ↔ i ∈ order := by
      rw [List.mem_append, List.mem_singleton]
      exact ⟨fun hor => hor.elim id fun heq => heq ▸ h (heq ▸ hlt), .inl⟩
    simp only [hmem]

theorem textsAfter_concat {index : Nat} {path text : String} (hpath : paths[index]? = some path)
    (hread : tree.read path.toList = .ok text) :
    textsAfter tree (order ++ [index]) paths =
      (textsAfter tree order paths).set index (some text) := by
  refine List.ext_getElem? fun i => ?_
  have hlt : index < paths.length := (List.getElem?_eq_some_iff.mp hpath).1
  rw [List.getElem?_set, textsAfter, textsAfter, List.getElem?_mapIdx, List.getElem?_mapIdx,
    List.length_mapIdx]
  by_cases hi : index = i
  · subst hi
    have hmem : index ∈ order ++ [index] := by simp
    simp only [hpath, Option.map_some, if_pos hmem, hread, if_true, if_pos hlt]
    rfl
  · have hmem : i ∈ order ++ [index] ↔ i ∈ order := by simp [Ne.symm hi]
    simp only [hmem, if_neg hi]

theorem textsAfter_of_ends (hends : ∀ index < paths.length, index ∈ order) :
    textsAfter tree order paths = paths.map fun path => (tree.read path.toList).toOption := by
  refine List.ext_getElem? fun i => ?_
  rw [textsAfter, List.getElem?_mapIdx, List.getElem?_map]
  cases hi : paths[i]? with
  | none => rfl
  | some path => simp [hends i (List.getElem?_eq_some_iff.mp hi).1]

theorem mem_pathsInTime {index : Nat} {path : String} (hindex : index ∈ order)
    (hpath : paths[index]? = some path) : path ∈ pathsInTime order paths :=
  List.mem_filterMap.mpr ⟨index, hindex, hpath⟩

/-- What comes of reads when some of them have ended: the first that failed in time has decided, or
none has failed and all texts are there of those that have ended. -/
inductive ComesOf (tree : FileTree) (paths : List String) (order : List Nat) :
    ReadBatch → Prop where
  | failed {b : ReadBatch} {fault : ReadFault}
      (first : FirstFault (fun path => tree.read path.toList) (pathsInTime order paths) fault)
      (failure : b.failure = some (.read fault)) : ComesOf tree paths order b
  | reading
      (texts : ∀ path ∈ pathsInTime order paths, ∃ text, tree.read path.toList = .ok text) :
      ComesOf tree paths order ⟨textsAfter tree order paths, none⟩

theorem comesOf_start (tree : FileTree) (paths : List String) :
    ComesOf tree paths [] (start paths) := by
  have hnone : textsAfter tree [] paths = paths.map fun _ => none :=
    List.ext_getElem? fun i => by simp [textsAfter, -List.map_const']
  have hstart : start paths = ⟨textsAfter tree [] paths, none⟩ := by rw [hnone, start]
  rw [hstart]
  exact .reading (by simp [pathsInTime])

/-- A read that is not of a path, or that has ended before, changes nothing. -/
theorem ComesOf.again {index : Nat} (hmem : index < paths.length → index ∈ order)
    (hread : ∀ path ∈ pathsInTime order paths, ∃ text, tree.read path.toList = .ok text) :
    ComesOf tree paths (order ++ [index]) ⟨textsAfter tree order paths, none⟩ := by
  rw [← textsAfter_concat_of_mem hmem]
  refine .reading fun path hpath => ?_
  rw [pathsInTime_concat] at hpath
  rcases List.mem_append.mp hpath with hpath | hpath
  · exact hread path hpath
  · have hget : paths[index]? = some path := by simpa using hpath
    exact hread path (mem_pathsInTime (hmem (List.getElem?_eq_some_iff.mp hget).1) hget)

theorem ComesOf.step {b : ReadBatch} (h : ComesOf tree paths order b) (index : Nat) :
    ComesOf tree paths (order ++ [index]) (b.step tree paths (.ended index)) := by
  cases h with
  | failed first failure =>
    rw [step_of_failure failure]
    exact .failed (pathsInTime_concat .. ▸ first.append _) failure
  | reading hread =>
    by_cases hover : isOver ⟨textsAfter tree order paths, none⟩ = true
    · rw [ReadBatch.step, if_pos hover]
      exact .again (mem_of_all_isSome (by simpa [isOver] using hover)) hread
    rw [ReadBatch.step, if_neg hover, meet]
    cases hget : paths[index]? with
    | none => exact .again (fun hlt => by simp [List.getElem?_eq_getElem hlt] at hget) hread
    | some path =>
      have htime : pathsInTime (order ++ [index]) paths = pathsInTime order paths ++ [path] := by
        rw [pathsInTime_concat, hget, Option.toList_some]
      cases htext : tree.read path.toList with
      | ok text =>
        simp only [htext, take]
        rw [← textsAfter_concat hget htext]
        refine .reading fun other hother => ?_
        rw [htime] at hother
        rcases List.mem_append.mp hother with hother | hother
        · exact hread other hother
        · exact ⟨text, List.mem_singleton.mp hother ▸ htext⟩
      | error fault =>
        simp only [htext, take]
        exact .failed (htime ▸ FirstFault.concat hread htext) rfl

theorem comesOf_run (tree : FileTree) (paths : List String) (order : List Nat) :
    ComesOf tree paths order (run tree paths (order.map .ended)) := by
  induction order using List.reverseRecOn with
  | nil => exact comesOf_start tree paths
  | append_singleton order index ih =>
    rw [List.map_append, List.map_singleton, run_concat]
    exact ih.step index

theorem all_readable (hends : ∀ index < paths.length, index ∈ order)
    (hread : ∀ path ∈ pathsInTime order paths, ∃ text, tree.read path.toList = .ok text) :
    ∀ path ∈ paths, ∃ text, tree.read path.toList = .ok text := by
  intro path hpath
  obtain ⟨index, hlt, hget⟩ := List.mem_iff_getElem.mp hpath
  exact hread path (mem_pathsInTime (hends index hlt) (hget ▸ List.getElem?_eq_getElem hlt))

/-- When the reads of all paths have ended, the texts are there in the order of the paths. -/
theorem result_run_of_readable (hends : ∀ index < paths.length, index ∈ order)
    {texts : List String} (h : paths.mapM (fun path => tree.read path.toList) = .ok texts) :
    (run tree paths (order.map .ended)).result = .ok texts := by
  generalize hrun : run tree paths (order.map .ended) = b
  have hcomes : ComesOf tree paths order b := hrun ▸ comesOf_run tree paths order
  cases hcomes with
  | failed first _ =>
    obtain ⟨path, hpath, hfault⟩ := first.exists_mem
    have hunreadable : ∃ path ∈ paths, ∃ fault, tree.read path.toList = .error fault :=
      ⟨path, mem_of_mem_pathsInTime hpath, _, hfault⟩
    obtain ⟨fault, hfirst⟩ := exists_firstFault hunreadable
    cases h.symm.trans hfirst.mapM_eq
  | reading _ =>
    have hafter : textsAfter tree order paths = texts.map some := by
      rw [textsAfter_of_ends hends, ← List.forall₂_eq_eq_eq, List.forall₂_map_left_iff,
        List.forall₂_map_right_iff]
      exact (mapM_eq_ok_iff_forall₂.mp h).imp fun _ _ htext => by rw [htext]; rfl
    have hgiven : (texts.map some).mapM id = some texts := by
      rw [List.mapM_map]
      exact (List.mapM_pure (f := id)).trans (by simp)
    rw [result, hafter, hgiven]

/-- When the reads of all paths have ended and one has failed, the first that failed has decided. -/
theorem result_run_of_unreadable (hends : ∀ index < paths.length, index ∈ order)
    (h : ∃ path ∈ paths, ∃ fault, tree.read path.toList = .error fault) :
    ∃ fault, FirstFault (fun path => tree.read path.toList) (pathsInTime order paths) fault ∧
      (run tree paths (order.map .ended)).result = .error (.read fault) := by
  generalize hrun : run tree paths (order.map .ended) = b
  have hcomes : ComesOf tree paths order b := hrun ▸ comesOf_run tree paths order
  cases hcomes with
  | failed first failure => exact ⟨_, first, by rw [result, failure]⟩
  | reading hread =>
    obtain ⟨path, hpath, fault, hfault⟩ := h
    obtain ⟨text, htext⟩ := all_readable hends hread path hpath
    cases hfault.symm.trans htext

end ReadBatch

end SchemaLoom
