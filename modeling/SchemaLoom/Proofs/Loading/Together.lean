import Mathlib
import SchemaLoom.Proofs.Loading.Reads

/-! Loading with the files read one after another, and loading with the files read at the same time.
Both end alike, but each with the file that it was the first to find unreadable. -/

namespace SchemaLoom

section Order

theorem compareRuns_eq (a b : List Char) : compareRuns a b = List.compareLex compare a b := by
  induction a generalizing b with
  | nil => cases b <;> rfl
  | cons c rest ih =>
    cases b with
    | nil => rfl
    | cons d more => rw [compareRuns, ih, List.compareLex_cons_cons]

theorem textLE_trans (a b c : String) (hab : textLE a b = true) (hbc : textLE b c = true) :
    textLE a c = true := by
  rw [textLE, compareRuns_eq] at *
  exact Std.TransCmp.isLE_trans hab hbc

theorem textLE_total (a b : String) : (textLE a b || textLE b a) = true := by
  have hswap : List.compareLex compare b.toList a.toList =
      (List.compareLex compare a.toList b.toList).swap := Std.OrientedCmp.eq_swap
  rw [textLE, textLE, compareRuns_eq, compareRuns_eq, hswap]
  cases List.compareLex compare a.toList b.toList <;> rfl

theorem textLE_antisymm {a b : String} (hab : textLE a b = true) (hba : textLE b a = true) :
    a = b := by
  rw [textLE, compareRuns_eq] at *
  have heq := Std.OrientedCmp.isLE_antisymm hab hba
  exact String.toList_injective (Std.LawfulEqCmp.eq_of_compare heq)

end Order

/-- The paths that match a pattern, of which there is at least one, in the order of their
characters. -/
def SortedMatches (tree : FileTree) (pattern : String) (cwd : Option String)
    (options : GlobOptions) (paths : List String) : Prop :=
  ∃ found, pathsMatching tree pattern.toList (cwd.map String.toList) options = .ok found ∧
    found ≠ [] ∧ paths.Perm (found.map String.ofList) ∧
    paths.Pairwise fun a b => textLE a b = true

variable {tree : FileTree} {pattern : String} {cwd : Option String} {options : GlobOptions}
  {paths : List String}

theorem sortedMatches_mergeSort {found : List Path}
    (hfound : pathsMatching tree pattern.toList (cwd.map String.toList) options = .ok found)
    (hne : found ≠ []) :
    SortedMatches tree pattern cwd options ((found.map String.ofList).mergeSort textLE) :=
  ⟨found, hfound, hne, List.mergeSort_perm .., List.pairwise_mergeSort textLE_trans textLE_total _⟩

theorem outcome_resolvePattern (h : SortedMatches tree pattern cwd options paths) :
    (resolvePattern tree pattern cwd options).outcome =
      (.ok paths, [.matched pattern paths.length]) := by
  obtain ⟨found, hfound, hne, hperm, hsorted⟩ := h
  have hpaths : (found.map String.ofList).mergeSort textLE = paths :=
    (List.mergeSort_perm ..).trans hperm.symm |>.eq_of_pairwise
      (fun _ _ _ _ => textLE_antisymm)
      (List.pairwise_mergeSort textLE_trans textLE_total _) hsorted
  obtain ⟨first, rest, rfl⟩ := List.exists_cons_of_ne_nil hne
  rw [resolvePattern, hfound, ← hpaths]
  rfl

theorem outcome_resolvePattern_of_none
    (h : pathsMatching tree pattern.toList (cwd.map String.toList) options = .ok []) :
    (resolvePattern tree pattern cwd options).outcome = (.error (.patternMatch pattern), []) := by
  rw [resolvePattern, h]
  rfl

theorem outcome_resolvePattern_of_error {fault : GlobFault}
    (h : pathsMatching tree pattern.toList (cwd.map String.toList) options = .error fault) :
    (resolvePattern tree pattern cwd options).outcome = (.error (.glob fault), []) := by
  rw [resolvePattern, h]
  rfl

/-- How loading ends with the files read one after another, and how it ends with the files read at
the same time if their reads end in the given order. `next` is what is made of the texts. -/
structure LoadsAlike (tree : FileTree) (order : List String → List Nat) (pattern : String)
    (cwd : Option String) (options : GlobOptions) (next : List String → Work α) (inTurn : Work α)
    (together : LoadRun α) : Prop where
  refused : ∀ fault,
    pathsMatching tree pattern.toList (cwd.map String.toList) options = .error fault →
    inTurn.outcome = (.error (.glob fault), []) ∧ together = ⟨⟨.error (.glob fault), []⟩, []⟩
  unmatched : pathsMatching tree pattern.toList (cwd.map String.toList) options = .ok [] →
    inTurn.outcome = (.error (.patternMatch pattern), []) ∧
      together = ⟨⟨.error (.patternMatch pattern), []⟩, []⟩
  matched : ∀ found, pathsMatching tree pattern.toList (cwd.map String.toList) options = .ok found →
    found ≠ [] → ∃ paths, SortedMatches tree pattern cwd options paths
  readable : ∀ paths texts, SortedMatches tree pattern cwd options paths →
    List.Forall₂ (fun path text => tree.read path.toList = .ok text) paths texts →
    inTurn.outcome = (next texts).endFrom [.matched pattern paths.length] ∧
      together = inTurn.settle none
  unreadable : ∀ paths, SortedMatches tree pattern cwd options paths →
    (∃ path ∈ paths, ∃ fault, tree.read path.toList = .error fault) →
    ∃ first firstInTime, FirstFault (fun path => tree.read path.toList) paths first ∧
      FirstFault (fun path => tree.read path.toList) (pathsInTime (order paths) paths)
        firstInTime ∧
      inTurn.outcome = (.error (.read first), [.matched pattern paths.length]) ∧
      together =
        ⟨⟨.error (.read firstInTime), []⟩, [.matched pattern paths.length]⟩ ∧
      ((∀ path ∈ paths, ∀ other ∈ paths, ∀ fault own, tree.read path.toList = .error fault →
        tree.read other.toList = .error own → path = other) → first = firstInTime)

/-- Resolving a pattern, reading the files, and making something of the texts. -/
def loadWith (tree : FileTree) (pattern : String) (cwd : Option String) (options : GlobOptions)
    (reading : List String → Work (List String)) (next : List String → Work α) : Work α := do
  let paths ← resolvePattern tree pattern cwd options
  next (← reading paths)

theorem outcome_loadWith_of_error {reading : List String → Work (List String)}
    {next : List String → Work α} {failure : Failure}
    (h : (resolvePattern tree pattern cwd options).outcome = (.error failure, [])) :
    (loadWith tree pattern cwd options reading next).outcome = (.error failure, []) := by
  rw [Work.outcome_eq, loadWith, Work.endFrom_bind, ← Work.outcome_eq, h]

theorem outcome_loadWith (reading : List String → Work (List String))
    (next : List String → Work α) (h : SortedMatches tree pattern cwd options paths)
    {read : Except Failure (List String)} (hread : reading paths = Work.ofExcept id read) :
    (loadWith tree pattern cwd options reading next).outcome =
      match read with
      | .ok texts => (next texts).endFrom [.matched pattern paths.length]
      | .error failure => (.error failure, [.matched pattern paths.length]) := by
  rw [Work.outcome_eq, loadWith, Work.endFrom_bind, ← Work.outcome_eq, outcome_resolvePattern h]
  simp only [Work.endFrom_bind, hread, Work.endFrom_ofExcept]
  cases read <;> rfl

/-- Reading the files one after another, up to the first that cannot be read. -/
theorem readFiles_eq (tree : FileTree) (paths : List String) :
    readFiles tree paths =
      Work.ofExcept id ((paths.mapM fun path => tree.read path.toList).mapError .read) := by
  rw [readFiles, FileTree.readAll, List.mapM_map]
  change Work.ofExcept .read (paths.mapM fun path => tree.read path.toList) = _
  cases paths.mapM fun path => tree.read path.toList <;> rfl

theorem eq_of_one_unreadable {time : List String} {first firstInTime : ReadFault}
    (hone : ∀ path ∈ paths, ∀ other ∈ paths, ∀ fault own, tree.read path.toList = .error fault →
      tree.read other.toList = .error own → path = other)
    (htime : ∀ path ∈ time, path ∈ paths)
    (hfirst : FirstFault (fun path => tree.read path.toList) paths first)
    (hfirstInTime : FirstFault (fun path => tree.read path.toList) time firstInTime) :
    first = firstInTime := by
  obtain ⟨path, hpath, hfault⟩ := hfirst.exists_mem
  obtain ⟨other, hother, hown⟩ := hfirstInTime.exists_mem
  obtain rfl := hone path hpath other (htime other hother) first firstInTime hfault hown
  exact Except.error.inj (hfault.symm.trans hown)

/-- Whatever is made of the texts, reading the files at the same time changes nothing but the choice
among several files that cannot be read. -/
theorem loadsAlike_loadWith {order : List String → List Nat}
    (hends : ∀ paths, ∀ index < paths.length, index ∈ order paths) (next : List String → Work α) :
    LoadsAlike tree order pattern cwd options next
      (loadWith tree pattern cwd options (readFiles tree) next)
      ((loadWith tree pattern cwd options (fun paths => readFilesTogether tree (order paths) paths)
        next).settle none) where
  refused fault h := by
    have hresolved := outcome_resolvePattern_of_error h
    rw [Work.settle_none, outcome_loadWith_of_error hresolved, outcome_loadWith_of_error hresolved]
    exact ⟨rfl, rfl⟩
  unmatched h := by
    have hresolved := outcome_resolvePattern_of_none h
    rw [Work.settle_none, outcome_loadWith_of_error hresolved, outcome_loadWith_of_error hresolved]
    exact ⟨rfl, rfl⟩
  matched found h hne := ⟨_, sortedMatches_mergeSort h hne⟩
  readable paths texts hpaths hread := by
    have htexts := mapM_eq_ok_iff_forall₂.mpr hread
    have hturn := outcome_loadWith (readFiles tree) next hpaths
      ((readFiles_eq tree paths).trans (by rw [htexts]))
    have htogether := outcome_loadWith
      (fun paths => readFilesTogether tree (order paths) paths) next hpaths
      (congrArg (Work.ofExcept id) (ReadBatch.result_run_of_readable (hends paths) htexts))
    rw [Work.settle_none, Work.settle_none, hturn, htogether]
    exact ⟨rfl, rfl⟩
  unreadable paths hpaths hunreadable := by
    obtain ⟨first, hfirst⟩ := exists_firstFault hunreadable
    obtain ⟨firstInTime, hfirstInTime, hresult⟩ :=
      ReadBatch.result_run_of_unreadable (hends paths) hunreadable
    have hturn := outcome_loadWith (readFiles tree) next hpaths
      ((readFiles_eq tree paths).trans (by rw [hfirst.mapM_eq]))
    have htogether := outcome_loadWith
      (fun paths => readFilesTogether tree (order paths) paths) next hpaths
      (congrArg (Work.ofExcept id) hresult)
    refine ⟨first, firstInTime, hfirst, hfirstInTime, hturn, ?_, ?_⟩
    · rw [Work.settle_none, htogether]
      rfl
    · intro hone
      exact eq_of_one_unreadable hone (fun _ => mem_of_mem_pathsInTime) hfirst hfirstInTime

variable (tree pattern cwd options) (located assumeValid : Bool)

/-- Waiting for the call that loads the document comes to the same as doing its work. -/
theorem outcome_loadSchemaAwaited (course : Course) :
    (loadSchemaAwaited tree course pattern cwd options located assumeValid).outcome =
      (loadDocumentAwaited tree course pattern cwd options located >>= fun document =>
        buildWork document assumeValid).outcome := by
  rw [Work.outcome_eq, Work.outcome_eq, loadSchemaAwaited, Work.endFrom_bind, Work.endFrom_bind,
    LoadRun.endFrom_await, loadDocumentRun, Work.settle_none, ← Work.outcome_eq]
  cases (loadDocumentAwaited tree course pattern cwd options located).outcome with
  | mk result records => cases result <;> rfl

theorem loadWith_bind (reading : List String → Work (List String)) (next : List String → Work α)
    (last : α → Work β) :
    loadWith tree pattern cwd options reading next >>= last =
      loadWith tree pattern cwd options reading fun texts => next texts >>= last := by
  simp only [loadWith, bind_assoc]

theorem loadDocumentRun_undisturbed (order : List String → List Nat) (callback : Option Callback) :
    loadDocumentRun tree (.undisturbed order) pattern cwd options located callback =
      (loadDocumentTogether tree order pattern cwd options located).settle callback := rfl

theorem loadSchemaRun_undisturbed (order : List String → List Nat) (callback : Option Callback) :
    loadSchemaRun tree (.undisturbed order) pattern cwd options located assumeValid callback =
      (loadSchemaTogether tree order pattern cwd options located assumeValid).settle callback := by
  rw [loadSchemaRun, Work.settle, outcome_loadSchemaAwaited]
  rfl

theorem loadDocumentTogether_eq (order : List String → List Nat) :
    loadDocumentTogether tree order pattern cwd options located =
      loadWith tree pattern cwd options (fun paths => readFilesTogether tree (order paths) paths)
        fun texts => parseContents texts located := rfl

/-- Documents and schemas are loaded alike in both ways, in whatever order the reads end. -/
theorem loadTogether_endsAlike (order : List String → List Nat)
    (hends : ∀ paths, ∀ index < paths.length, index ∈ order paths) :
    LoadsAlike tree order pattern cwd options (fun texts => parseContents texts located)
        (loadDocument tree pattern cwd options located)
        (loadDocumentRun tree (.undisturbed order) pattern cwd options located none) ∧
      LoadsAlike tree order pattern cwd options
        (fun texts => parseContents texts located >>= fun document =>
          buildWork document assumeValid)
        (loadSchema tree pattern cwd options located assumeValid)
        (loadSchemaRun tree (.undisturbed order) pattern cwd options located assumeValid none) := by
  constructor
  · rw [loadDocumentRun_undisturbed, loadDocumentTogether_eq]
    exact loadsAlike_loadWith hends _
  · have hturn : loadSchema tree pattern cwd options located assumeValid =
        loadWith tree pattern cwd options (readFiles tree) fun texts =>
          parseContents texts located >>= fun document => buildWork document assumeValid :=
      loadWith_bind tree pattern cwd options (readFiles tree) _ _
    have htogether := loadWith_bind tree pattern cwd options
      (fun paths => readFilesTogether tree (order paths) paths)
      (fun texts => parseContents texts located) fun document => buildWork document assumeValid
    rw [hturn, loadSchemaRun_undisturbed, loadSchemaTogether, loadDocumentTogether_eq, htogether]
    exact loadsAlike_loadWith hends _

/-- The reads end from the last path to the first, and the first two paths cannot be read. -/
theorem loadTogether_endsAlike_reversed :
    let tree : FileTree :=
      ⟨.directory [(['c'], .file []), (['b'], .directory []), (['a'], .file [0xff])], []⟩
    let order (paths : List String) : List Nat := (List.range paths.length).reverse
    (∀ paths, ∀ index < paths.length, index ∈ order paths) ∧
      (loadDocument tree "*" none {} true).outcome =
        (.error (.read (.undecodable ⟨0, 0xff, 0, .invalidStart⟩)), [.matched "*" 3]) ∧
      loadDocumentRun tree (.undisturbed order) "*" none {} true none =
        ⟨⟨.error (.read (.isDirectory ['b'])), []⟩, [.matched "*" 3]⟩ := by
  intro tree order
  have hends : ∀ paths, ∀ index < paths.length, index ∈ order paths := by
    intro paths index hindex
    simpa [order] using hindex
  have hpaths : SortedMatches tree "*" none {} ["a", "b", "c"] :=
    ⟨[['c'], ['b'], ['a']], by cbv, by simp, by decide, by decide⟩
  have hunreadable : tree.read "b".toList = .error (.isDirectory ['b']) := by cbv
  obtain ⟨first, firstInTime, hfirst, hfirstInTime, hturn, htogether, -⟩ :=
    (loadTogether_endsAlike tree "*" none {} true false order hends).1.unreadable _ hpaths
      ⟨"b", by simp, _, hunreadable⟩
  have hread : ["a", "b", "c"].mapM (fun path => tree.read path.toList) =
      .error (.undecodable ⟨0, 0xff, 0, .invalidStart⟩) := by cbv
  have hreadInTime : (pathsInTime (order ["a", "b", "c"]) ["a", "b", "c"]).mapM
      (fun path => tree.read path.toList) = .error (.isDirectory ['b']) := by cbv
  obtain rfl := Except.error.inj (hfirst.mapM_eq.symm.trans hread)
  obtain rfl := Except.error.inj (hfirstInTime.mapM_eq.symm.trans hreadInTime)
  exact ⟨hends, hturn, htogether⟩

end SchemaLoom
