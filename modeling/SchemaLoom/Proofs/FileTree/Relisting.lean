import Mathlib.Data.List.Perm.Basic
import SchemaLoom.FileTree.Reading
import SchemaLoom.Proofs.FileTree.Walking

/-! Trees of the same files, directories and links, whose directories are listed in different orders.
Every path leads to the same in them. -/

namespace SchemaLoom

namespace FileNode

/-- A node that differs from another one in nothing but the order in which the directories in it are
listed. -/
inductive Relisted : FileNode → FileNode → Prop where
  | refl (node : FileNode) : Relisted node node
  | listing {entries others : List (Path × FileNode)} :
    entries.Perm others → Relisted (.directory entries) (.directory others)
  | entry {node other : FileNode} (before : List (Path × FileNode)) (name : Path)
    (after : List (Path × FileNode)) : Relisted node other →
    Relisted (.directory (before ++ (name, node) :: after))
      (.directory (before ++ (name, other) :: after))
  | trans {node between other : FileNode} :
    Relisted node between → Relisted between other → Relisted node other

/-- In each directory all entries have names, and no two have the same. -/
inductive IsProper : FileNode → Prop where
  | file (bytes : List UInt8) : IsProper (.file bytes)
  | link (target : Path) : IsProper (.link target)
  | directory {entries : List (Path × FileNode)} :
    (entries.map Prod.fst).Nodup → [] ∉ entries.map Prod.fst →
    (∀ e ∈ entries, e.2.IsProper) → IsProper (.directory entries)

def Alike (node other : FileNode) : Prop := node.IsProper ∧ node.Relisted other

variable {node other : FileNode}

theorem IsProper.entries (h : node.IsProper) : (node.entries.map Prod.fst).Nodup ∧
    ∀ e ∈ node.entries, e.1 ≠ [] ∧ e.2.IsProper := by
  cases h with
  | file _ => exact ⟨.nil, by simp [FileNode.entries]⟩
  | link _ => exact ⟨.nil, by simp [FileNode.entries]⟩
  | directory hnd hne hnodes =>
    exact ⟨hnd, fun e he => ⟨fun hnil => hne (List.mem_map.mpr ⟨e, he, hnil⟩), hnodes e he⟩⟩

namespace Relisted

theorem entries_congr {entries others : List (Path × FileNode)}
    (hnodes : List.Forall₂ (fun e own => e.1 = own.1 ∧ e.2.Relisted own.2) entries others)
    (before : List (Path × FileNode)) :
    (FileNode.directory (before ++ entries)).Relisted (.directory (before ++ others)) := by
  induction hnodes generalizing before with
  | nil => exact .refl _
  | @cons e own rest more he _ ih =>
    obtain ⟨name, node⟩ := e
    obtain ⟨_, other⟩ := own
    obtain ⟨rfl, hnode⟩ := he
    have hrest := ih (before ++ [(name, other)])
    rw [List.append_assoc, List.append_assoc] at hrest
    exact .trans (.entry before name rest hnode) hrest

/-- All directories may be listed in other orders at once. -/
theorem directory {entries between others : List (Path × FileNode)} (hp : entries.Perm between)
    (hnodes : List.Forall₂ (fun e own => e.1 = own.1 ∧ e.2.Relisted own.2) between others) :
    (FileNode.directory entries).Relisted (.directory others) :=
  .trans (.listing hp) (entries_congr hnodes [])

theorem isDirectory_eq (h : node.Relisted other) : node.isDirectory = other.isDirectory := by
  induction h with
  | trans _ _ ih ih' => exact ih.trans ih'
  | _ => rfl

theorem eq_of_not_directory (h : node.Relisted other) (hn : node.isDirectory = false) :
    other = node := by
  induction h with
  | refl _ => rfl
  | listing _ => cases hn
  | entry _ _ _ _ _ => cases hn
  | trans hleft _ ih ih' =>
    obtain rfl := ih hn
    exact ih' hn

theorem target?_eq (h : node.Relisted other) : node.target? = other.target? := by
  induction h with
  | trans _ _ ih ih' => exact ih.trans ih'
  | _ => rfl

theorem listing_perm (h : node.Relisted other) :
    (node.entries.map fun e => (e.1, e.2.isDirectory, e.2.target?)).Perm
      (other.entries.map fun e => (e.1, e.2.isDirectory, e.2.target?)) := by
  induction h with
  | refl node => exact .refl _
  | listing hp => exact hp.map _
  | entry before name after hnode _ =>
    simp [entries, hnode.isDirectory_eq, hnode.target?_eq]
  | trans _ _ ih ih' => exact ih.trans ih'

theorem isProper (h : node.Relisted other) (hproper : node.IsProper) : other.IsProper := by
  induction h with
  | refl _ => exact hproper
  | listing hp =>
    cases hproper with
    | directory hnd hne hnodes =>
      exact .directory ((hp.map _).nodup_iff.mp hnd) (fun h => hne ((hp.map _).mem_iff.mpr h))
        fun e he => hnodes e (hp.mem_iff.mpr he)
  | @entry node other before name after _ ih =>
    cases hproper with
    | directory hnd hne hnodes =>
      refine .directory (by simpa using hnd) (by simpa using hne) fun e he => ?_
      rcases List.mem_append.mp he with hb | ha
      · exact hnodes e (List.mem_append_left _ hb)
      · rcases List.mem_cons.mp ha with rfl | ha
        · exact ih (hnodes (name, node) (List.mem_append_right _ (List.mem_cons_self ..)))
        · exact hnodes e (List.mem_append_right _ (List.mem_cons_of_mem _ ha))
  | trans _ _ ih ih' => exact ih' (ih hproper)

end Relisted

theorem Alike.self (h : node.IsProper) : node.Alike node := ⟨h, .refl node⟩

theorem Alike.trans {between : FileNode} (h : node.Alike between) (h' : between.Alike other) :
    node.Alike other := ⟨h.1, h.2.trans h'.2⟩

theorem rel_alike_trans {a b c : Option FileNode} (h : Option.Rel Alike a b)
    (h' : Option.Rel Alike b c) : Option.Rel Alike a c := by
  cases h with
  | none => exact h'
  | some hab => cases h' with
    | some hbc => exact .some (hab.trans hbc)

theorem IsProper.child? (h : node.IsProper) (name : Path) :
    Option.Rel Alike (node.child? name) (node.child? name) := by
  cases hc : node.child? name with
  | none => exact .none
  | some child =>
    obtain ⟨e, he, rfl⟩ := Option.map_eq_some_iff.mp hc
    exact .some (.self (h.entries.2 e (List.mem_of_find?_eq_some he)).2)

/-- What is found by its name differs in nothing but listings, since no other entry of a directory
has the same name. -/
theorem Relisted.child? (h : node.Relisted other) (hproper : node.IsProper) (name : Path) :
    Option.Rel Alike (node.child? name) (other.child? name) := by
  induction h with
  | refl _ => exact hproper.child? name
  | @listing entries others hp =>
    have hsame : (FileNode.directory others).child? name =
        (FileNode.directory entries).child? name := by
      cases hproper with
      | directory hnd _ _ =>
        exact congrArg (Option.map Prod.snd) (find?_key_perm hnd hp name).symm
    rw [hsame]
    exact hproper.child? name
  | @entry node other before own after hnode _ =>
    have hnext := hproper.child? name
    cases hproper with
    | directory _ _ hnodes =>
      have hown : node.Alike other :=
        ⟨hnodes (own, node) (List.mem_append_right _ (List.mem_cons_self ..)), hnode⟩
      simp only [FileNode.child?, entries, List.find?_append, List.find?_cons] at hnext ⊢
      -- The entry that was exchanged is the one that is found, or it makes no difference.
      cases hb : before.find? (·.1 = name) with
      | some e => simpa [hb] using hnext
      | none =>
        rw [hb] at hnext
        by_cases hn : own = name
        · simpa [hn] using Option.Rel.some hown
        · simpa [hn] using hnext
  | trans hleft _ ih ih' => exact rel_alike_trans (ih hproper) (ih' (hleft.isProper hproper))

end FileNode

open FileNode

namespace FileTree

/-- The same tree, with its directories listed in other orders. -/
structure Relisted (tree other : FileTree) : Prop where
  root : tree.root.Relisted other.root
  workdir : tree.workdir = other.workdir

/-- A node that was walked to, with the nodes above it, and the same with other listings. -/
def Reached (found own : Spot) : Prop :=
  List.Forall₂ Alike found.trail own.trail ∧ found.here.Alike own.here

section Walk

variable {root other : FileNode} {place own : Spot}

theorem walkStep_alike (hplace : Reached place own) (name : Path) :
    EndsAlike Reached (walkStep place name) (walkStep own name) := by
  obtain ⟨trail, here⟩ := place
  obtain ⟨others, own⟩ := own
  obtain ⟨htrail, hhere⟩ : List.Forall₂ Alike trail others ∧ here.Alike own := hplace
  have hchild := hhere.2.child? hhere.1 name
  unfold walkStep
  dsimp only
  rw [← hhere.2.isDirectory_eq]
  split
  · exact .error _
  split
  · exact .ok ⟨htrail, hhere⟩
  split
  · cases htrail with
    | nil => exact .ok ⟨.nil, hhere⟩
    | cons hparent hrest => exact .ok ⟨hrest, hparent⟩
  split
  · exact .error _
  · generalize here.child? name = child, own.child? name = other at hchild
    cases hchild with
    | none => exact .error _
    | some hchild => exact .ok ⟨.cons hhere htrail, hchild⟩

/-- The same links are met in both trees, and as many of them are followed. -/
theorem walk_alike (hroot : root.Alike other) (follows : Bool) (links : Nat)
    (hplace : Reached place own) (names : List Path) :
    EndsAlike (fun stop more => stop.1 = more.1 ∧ Reached stop.2 more.2)
      (walk root follows links place names) (walk other follows links own names) := by
  fun_induction walk root follows links place names generalizing own with
  | case1 links place =>
    rw [walk]
    exact .ok ⟨rfl, hplace⟩
  | case2 links place name rest fault hstep =>
    have halike := (hstep ▸ walkStep_alike hplace name).eq_error
    rw [walk_cons_of_error halike]
    exact .error fault
  | case3 links place name rest next hstep hnode ih =>
    obtain ⟨further, hfurther, hnext⟩ := (hstep ▸ walkStep_alike hplace name).exists_ok
    rw [walk_cons_of_node hfurther (hnext.2.2.target?_eq ▸ hnode)]
    exact ih hnext
  | case4 links place name rest next hstep target hlink hlast =>
    obtain ⟨rfl, rfl⟩ : follows = false ∧ rest = [] := by simpa using hlast
    obtain ⟨further, hfurther, hnext⟩ := (hstep ▸ walkStep_alike hplace name).exists_ok
    rw [walk_last_link hfurther (hnext.2.2.target?_eq ▸ hlink)]
    exact .ok ⟨rfl, hnext⟩
  | case5 place name rest next hstep target hlink hon =>
    obtain ⟨further, hfurther, hnext⟩ := (hstep ▸ walkStep_alike hplace name).exists_ok
    rw [walk_cons_of_link hfurther (hnext.2.2.target?_eq ▸ hlink) hon, if_pos rfl]
    exact .error _
  | case6 place name rest next hstep target hlink hon links ih =>
    obtain ⟨further, hfurther, hnext⟩ := (hstep ▸ walkStep_alike hplace name).exists_ok
    rw [walk_cons_of_link hfurther (hnext.2.2.target?_eq ▸ hlink) hon, if_neg (by omega)]
    refine ih ?_
    unfold origin
    split
    · exact ⟨.nil, hroot⟩
    · exact hplace

theorem enter_alike (hroot : root.Alike other) (hplace : Reached place own) (names : List Path) :
    EndsAlike Reached (enter root place names) (enter other own names) := by
  induction names generalizing place own with
  | nil => exact .ok hplace
  | cons name rest ih =>
    exact (walk_alike hroot true maxLinks hplace [name]).bind fun _ _ hstop => ih hstop.2

end Walk

variable {tree other : FileTree} (hproper : tree.root.IsProper) (h : tree.Relisted other)
include hproper h

/-- A path leads to the same in both trees, or it leads nowhere for the same reason. -/
theorem resolve_alike (follows : Bool) (path : Path) :
    EndsAlike Alike (tree.resolve follows path) (other.resolve follows path) := by
  have hroot : tree.root.Alike other.root := ⟨hproper, h.root⟩
  have hbegun : Reached ⟨[], tree.root⟩ ⟨[], other.root⟩ := ⟨.nil, hroot⟩
  have hstart : EndsAlike Reached (tree.start path) (other.start path) := by
    unfold start
    rw [← h.workdir]
    split
    · exact .ok hbegun
    · exact enter_alike hroot hbegun tree.workdir
  have harrive := hstart.bind fun _ _ hplace =>
    walk_alike hroot follows maxLinks hplace (Path.components path)
  unfold resolve arrive
  split
  · exact .error _
  split
  · exact .error _
  split
  · exact .error _
  · exact harrive.map fun _ _ hstop => hstop.2.2

theorem lookup_alike (path : Path) : EndsAlike Alike (tree.lookup path) (other.lookup path) :=
  resolve_alike hproper h true path

theorem contains_eq (path : Path) : tree.contains path = other.contains path := by
  have hresolve := resolve_alike hproper h false path
  unfold contains
  generalize tree.resolve false path = found, other.resolve false path = own at hresolve
  cases hresolve <;> rfl

theorem isDirectory_eq (path : Path) : tree.isDirectory path = other.isDirectory path := by
  have hlookup := lookup_alike hproper h path
  unfold isDirectory
  generalize tree.lookup path = found, other.lookup path = own at hlookup
  cases hlookup with
  | ok hnode => exact hnode.2.isDirectory_eq
  | error fault => rfl

theorem read_eq (path : Path) : tree.read path = other.read path := by
  have hlookup := lookup_alike hproper h path
  unfold read
  generalize tree.lookup path = found, other.lookup path = own at hlookup
  cases hlookup with
  | error fault => rfl
  | @ok node own hnode =>
    cases node with
    | file bytes => rw [hnode.2.eq_of_not_directory rfl]
    | link target => rw [hnode.2.eq_of_not_directory rfl]
    | directory entries =>
      cases own with
      | directory others => rfl
      | file bytes => cases hnode.2.isDirectory_eq
      | link target => rfl

end FileTree

end SchemaLoom
