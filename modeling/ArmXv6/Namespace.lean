import ArmXv6.Sysfile

namespace ArmXv6.Namespace

open Lib.Exec Lib.Bytes Param Fs Content Sysfile

/-- What the name space knows of an inode: its type, its link count and, for a directory,
its entries. -/
structure Node where
  type : Nat
  nlink : Nat
  entries : List Dirent

def Node.free : Node := ⟨0, 0, []⟩

abbrev Names : Type := Nat → Node

/-- The list with x at place k, which is at most its end. -/
def place {α : Type} (l : List α) (k : Nat) (x : α) : List α := l.take k ++ x :: l.drop (k + 1)

theorem getElem?_place {α : Type} {l : List α} {k : Nat} (hk : k ≤ l.length) (x : α) (j : Nat) :
    (place l k x)[j]? = if j = k then some x else l[j]? := by
  have hlen : (l.take k).length = k := by simp [hk]
  unfold place
  by_cases hj : j < k
  · rw [List.getElem?_append_left (by omega), if_neg (by omega), List.getElem?_take, if_pos hj]
  · rw [List.getElem?_append_right (by omega), hlen]
    by_cases hjk : j = k
    · simp [hjk]
    · obtain ⟨m, rfl⟩ : ∃ m, j = k + 1 + m := ⟨j - (k + 1), by omega⟩
      have hm : k + 1 + m - k = m + 1 := by omega
      rw [hm, List.getElem?_cons_succ, List.getElem?_drop, if_neg hjk]

theorem mem_place {α : Type} {l : List α} {k : Nat} {x y : α} (h : y ∈ place l k x) : y ∈ l ∨ y = x := by
  simp only [place, List.mem_append, List.mem_cons] at h
  rcases h with h | h | h
  · exact .inl (List.mem_of_mem_take h)
  · exact .inr h
  · exact .inl (List.mem_of_mem_drop h)

/-- The test that dirlookup makes on an entry. -/
def Matches (name : List UInt8) (de : Dirent) : Prop := de.inum ≠ 0 ∧ namecmp name de.name = 0

instance (name : List UInt8) (de : Dirent) : Decidable (Matches name de) := inferInstanceAs (Decidable (_ ∧ _))

def lookup (l : List Dirent) (name : List UInt8) : Option Dirent := l.find? fun de => Matches name de

theorem lookup_eq_none {l : List Dirent} {name : List UInt8} :
    lookup l name = none ↔ ∀ de ∈ l, ¬Matches name de := by
  simp [lookup]

theorem lookup_eq_some {l : List Dirent} {name : List UInt8} {k : Nat} {de : Dirent} (hget : l[k]? = some de)
    (hm : Matches name de) (hno : ∀ j < k, ∀ e, l[j]? = some e → ¬Matches name e) : lookup l name = some de := by
  obtain ⟨hk, rfl⟩ := List.getElem?_eq_some_iff.1 hget
  rw [lookup, List.find?_eq_some_iff_getElem]
  refine ⟨by simpa using hm, k, hk, rfl, fun j hj => ?_⟩
  have := hno j hj l[j] (List.getElem?_eq_getElem _)
  simpa using this

/-- Path resolution in the name space, from inode i on: the inode a path names, or with
parent set the directory of its last element and that element. -/
def resolve.loop (T : Names) (parent : Bool) : Nat → Nat → List UInt8 → List UInt8 → Option (Nat × List UInt8)
  | 0, _, _, _ => none
  | fuel + 1, i, path, name =>
      match skipelem path with
      | some (path, name) =>
          if (T i).type ≠ T_DIR then none
          else if parent ∧ path = [] then some (i, name)
          else
            match lookup (T i).entries name with
            | none => none
            | some de => resolve.loop T parent fuel de.inum path name
      | none => if parent then none else some (i, name)

/-- Resolution for a process whose current directory is inode cwd. -/
def resolve (T : Names) (cwd : Nat) (path : List UInt8) (parent : Bool) : Option (Nat × List UInt8) :=
  resolve.loop T parent (path.length + 1) (if path.head? = some slash then ROOTINO else cwd) path []

def setNlink (T : Names) (i n : Nat) : Names := Function.update T i { T i with nlink := n }

def setEntry (T : Names) (d k : Nat) (de : Dirent) : Names :=
  Function.update T d { T d with entries := place (T d).entries k de }

section

variable {T : Names} {i j n d k : Nat} {de : Dirent}

@[simp] theorem setNlink_self : setNlink T i n i = { T i with nlink := n } := Function.update_self ..

theorem setNlink_of_ne (h : j ≠ i) : setNlink T i n j = T j := Function.update_of_ne h _ _

theorem setEntry_of_ne (h : j ≠ d) : setEntry T d k de j = T j := Function.update_of_ne h _ _

@[simp] theorem type_setNlink (T : Names) (i n j : Nat) : (setNlink T i n j).type = (T j).type := by
  by_cases hj : j = i
  · rw [hj, setNlink_self]
  · rw [setNlink_of_ne hj]

@[simp] theorem entries_setNlink (T : Names) (i n j : Nat) : (setNlink T i n j).entries = (T j).entries := by
  by_cases hj : j = i
  · rw [hj, setNlink_self]
  · rw [setNlink_of_ne hj]

end

/-- Link counts are 16 bits wide. -/
def up (n : Nat) : Nat := (n + 1) % 2 ^ 16
def down (n : Nat) : Nat := (n + (2 ^ 16 - 1)) % 2 ^ 16

theorem up_lt (n : Nat) : up n < 2 ^ 16 := Nat.mod_lt _ (by decide)

theorem down_lt (n : Nat) : down n < 2 ^ 16 := Nat.mod_lt _ (by decide)

theorem down_up {n : Nat} (h : n < 2 ^ 16) : down (up n) = n := by
  unfold up down
  omega

attribute [irreducible] up down

open Classical in
/-- An inode without links that is not held goes. -/
noncomputable def release (held : Nat → Prop) (i : Nat) (T : Names) : Names :=
  if (T i).nlink = 0 ∧ ¬held i then Function.update T i Node.free else T

theorem release_of_ne (held : Nat → Prop) (T : Names) {i j : Nat} (h : j ≠ i) : release held i T j = T j := by
  unfold release
  split
  · exact Function.update_of_ne h _ _
  · rfl

/-- Place k of directory d can take a new entry of the given name. -/
structure Vacant (T : Names) (d k : Nat) (name : List UInt8) : Prop where
  dir : (T d).type = T_DIR
  le : k ≤ (T d).entries.length
  unused : ∀ de, (T d).entries[k]? = some de → de.inum = 0
  new : lookup (T d).entries name = none

noncomputable def link (held : Nat → Prop) (T : Names) (i d k : Nat) (name : List UInt8) : Names :=
  release held i (setEntry (setNlink T i (up (T i).nlink)) d k ⟨i, strncpy name DIRSIZ⟩)

/-- What a cleared entry holds. -/
def blank : Dirent := ⟨0, List.replicate DIRSIZ 0⟩

def clear (T : Names) (d i k : Nat) : Names :=
  if (T i).type = T_DIR then setNlink (setEntry T d k blank) d (down (T d).nlink) else setEntry T d k blank

noncomputable def unlink (held : Nat → Prop) (T : Names) (d i k : Nat) : Names :=
  release held i (setNlink (release held d (clear T d i k)) i (down (T i).nlink))

def dots (i d : Nat) : List Dirent := [⟨i, strncpy dot DIRSIZ⟩, ⟨d, strncpy dotdot DIRSIZ⟩]

/-- Inode i becomes one of the given type, with one link. -/
def make (T : Names) (type d i : Nat) : Names :=
  if type = T_DIR then setNlink (Function.update T i ⟨type, 1, dots i d⟩) d (up (T d).nlink)
  else Function.update T i ⟨type, 1, []⟩

theorem make_self (T : Names) (type : Nat) {d i : Nat} (hne : d ≠ i) :
    make T type d i i = ⟨type, 1, if type = T_DIR then dots i d else []⟩ := by
  unfold make
  split
  · rw [setNlink_of_ne (Ne.symm hne), Function.update_self]
  · rw [Function.update_self]

theorem make_parent (T : Names) (type : Nat) {d i : Nat} (hne : d ≠ i) :
    make T type d i d = if type = T_DIR then { T d with nlink := up (T d).nlink } else T d := by
  unfold make
  split
  · rw [setNlink_self, Function.update_of_ne hne]
  · rw [Function.update_of_ne hne]

noncomputable def create (held : Nat → Prop) (T : Names) (type d i k : Nat) (name : List UInt8) : Names :=
  release held d (setEntry (make T type d i) d k ⟨i, strncpy name DIRSIZ⟩)

theorem create_self (held : Nat → Prop) (T : Names) (type k : Nat) (name : List UInt8) {d i : Nat} (hne : d ≠ i) :
    create held T type d i k name i = ⟨type, 1, if type = T_DIR then dots i d else []⟩ := by
  unfold create
  rw [release_of_ne _ _ (Ne.symm hne), setEntry_of_ne (Ne.symm hne), make_self T type hne]

end ArmXv6.Namespace
