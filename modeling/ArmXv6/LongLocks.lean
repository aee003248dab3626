import Mathlib.Data.Set.Card
import ArmXv6.Param
import ArmXv6.Lib.SleepLock

namespace ArmXv6.LongLocks

open Lib.SleepLock Param

/-- What processes sleep on: the log, a cached inode or a buffer. Their flags are log.busy,
I_BUSY and B_BUSY. -/
inductive Chan
  | log
  | inode (i : Nat)
  | buf (b : Nat)
  deriving DecidableEq

structure Inode where
  dev : Nat
  inum : Nat
  ref : Nat
  valid : Bool
  nlink : Nat

structure Buf where
  dev : Nat
  sector : Nat
  dirty : Bool

/-- The loop that a process runs again when it wakes up. An inode is locked by way of a
reference to it. -/
inductive Call
  | beginTrans
  | ilock (t : Nat)
  | bget (dev sector : Nat)

/-- The references to cached inodes have names, because processes share those of open files;
via tells by which of them a process has locked an inode, and freeing which one a process
gives up in iput while it frees the inode. -/
structure Sys where
  locks : Table Chan
  calls : Nat → Option Call
  inodes : Nat → Inode
  bufs : Nat → Buf
  order : List Nat
  refs : Nat → Option Nat
  via : Nat → Nat → Option Nat
  freeing : Nat → Option Nat

def setCall (p : Nat) (c : Option Call) (s : Sys) : Sys := { s with calls := Function.update s.calls p c }

def setInode (i : Nat) (x : Inode) (s : Sys) : Sys := { s with inodes := Function.update s.inodes i x }

def setRef (t : Nat) (i : Option Nat) (s : Sys) : Sys := { s with refs := Function.update s.refs t i }

/-- One round of the loop in begin_trans. -/
def beginTrans (p : Nat) (s : Sys) : Sys :=
  if s.locks.busy .log then setCall p (some .beginTrans) { s with locks := block p .log s.locks }
  else setCall p none { s with locks := take p .log s.locks }

/-- The section at the end of commit_trans. -/
def commitTrans (p : Nat) (s : Sys) : Sys := { s with locks := drop p .log s.locks }

/-- One round of the loop in ilock on entry i, by reference t. -/
def ilock (p t i : Nat) (s : Sys) : Sys :=
  if s.locks.busy (.inode i) then setCall p (some (.ilock t)) { s with locks := block p (.inode i) s.locks }
  else
    setCall p none { s with
      locks := take p (.inode i) s.locks
      via := Function.update s.via p (Function.update (s.via p) i (some t)) }

def iunlock (p i : Nat) (s : Sys) : Sys :=
  { s with
    locks := drop p (.inode i) s.locks
    via := Function.update s.via p (Function.update (s.via p) i none) }

/-- iget makes reference t. There is no result after a panic. -/
def iget (dev inum t : Nat) (s : Sys) : Option Sys :=
  match (List.range NINODE).find? fun i => 0 < (s.inodes i).ref ∧ (s.inodes i).dev = dev ∧ (s.inodes i).inum = inum with
  | some i => some (setRef t (some i) (setInode i { s.inodes i with ref := (s.inodes i).ref + 1 } s))
  | none =>
      match (List.range NINODE).find? fun i => (s.inodes i).ref = 0 with
      | none => none
      | some i =>
          some (setRef t (some i) (setInode i { s.inodes i with dev := dev, inum := inum, ref := 1, valid := false }
            { s with locks := reset (.inode i) s.locks }))

def idup (i t : Nat) (s : Sys) : Sys :=
  setRef t (some i) (setInode i { s.inodes i with ref := (s.inodes i).ref + 1 } s)

/-- iput of reference t to entry i, up to the point where it lets go of icache.lock. -/
def iput (p t i : Nat) (s : Sys) : Option Sys :=
  if (s.inodes i).ref = 1 ∧ (s.inodes i).valid ∧ (s.inodes i).nlink = 0 then
    if s.locks.busy (.inode i) then none
    else some { s with locks := take p (.inode i) s.locks, freeing := Function.update s.freeing p (some t) }
  else some (setRef t none (setInode i { s.inodes i with ref := (s.inodes i).ref - 1 } s))

/-- The rest of iput once the inode is free on disk. -/
def iput.finish (p t i : Nat) (s : Sys) : Sys :=
  setRef t none (setInode i { s.inodes i with valid := false, ref := (s.inodes i).ref - 1 }
    { s with locks := drop p (.inode i) s.locks, freeing := Function.update s.freeing p none })

/-- One round of bget. -/
def bget (p dev sector : Nat) (s : Sys) : Option Sys :=
  match s.order.find? fun b => (s.bufs b).dev = dev ∧ (s.bufs b).sector = sector with
  | some b =>
      some
        (if s.locks.busy (.buf b) then setCall p (some (.bget dev sector))
        { s with locks := block p (.buf b) s.locks }
        else setCall p none { s with locks := take p (.buf b) s.locks })
  | none =>
      match s.order.reverse.find? fun b => ¬s.locks.busy (.buf b) ∧ ¬(s.bufs b).dirty with
      | none => none
      | some b =>
          some (setCall p none { s with
            bufs := Function.update s.bufs b ⟨dev, sector, false⟩
            locks := take p (.buf b) s.locks })

def brelse (p b : Nat) (s : Sys) : Sys :=
  { s with order := b :: s.order.erase b, locks := drop p (.buf b) s.locks }

/-- No process locks by way of reference t, waits to do so, or gives it up. -/
def Unused (t : Nat) (s : Sys) : Prop :=
  (∀ q, s.freeing q ≠ some t) ∧ (∀ q, s.calls q ≠ some (.ilock t)) ∧ ∀ q i, s.via q i ≠ some t

/-- The process runs, and is not in the middle of another loop. -/
def Ready (p : Nat) (c : Option Call) (s : Sys) : Prop := s.locks.asleep p = none ∧ (s.calls p = none ∨ s.calls p = c)

/-- The sections of all processes, each of which releases what it took, works on inodes that it
has a reference to, and gives a reference up when nobody works by it. -/
inductive Step : Sys → Sys → Prop
  | beginTrans {s : Sys} (p : Nat) (hp : Ready p (some .beginTrans) s) : Step s (beginTrans p s)
  | commitTrans {s : Sys} (p : Nat) (hp : Ready p none s) (ho : s.locks.owns p .log = true) : Step s (commitTrans p s)
  | ilock {s : Sys} (p t i : Nat) (hp : Ready p (some (.ilock t)) s) (ht : s.refs t = some i)
      (hf : ∀ q, s.freeing q ≠ some t) : Step s (ilock p t i s)
  | load {s : Sys} (p i n : Nat) (ho : s.locks.owns p (.inode i) = true) :
      Step s (setInode i { s.inodes i with valid := true, nlink := n } s)
  | iunlock {s : Sys} (p t i : Nat) (hp : Ready p none s) (hv : s.via p i = some t) : Step s (iunlock p i s)
  | iget {s s' : Sys} (dev inum t : Nat) (ht : s.refs t = none) (h : iget dev inum t s = some s') : Step s s'
  | idup {s : Sys} (i t t' : Nat) (ht : s.refs t = some i) (ht' : s.refs t' = none) : Step s (idup i t' s)
  | iput {s s' : Sys} (p t i : Nat) (hp : Ready p none s) (ht : s.refs t = some i) (hu : Unused t s)
      (hf : s.freeing p = none)
      (h : iput p t i s = some s') : Step s s'
  | iputFinish {s : Sys} (p t i : Nat) (hp : Ready p none s) (ht : s.refs t = some i) (hf : s.freeing p = some t) :
      Step s (iput.finish p t i s)
  | bget {s s' : Sys} (p dev sector : Nat) (hp : Ready p (some (.bget dev sector)) s)
      (h : bget p dev sector s = some s') :
      Step s s'
  | brelse {s : Sys} (p b : Nat) (hp : Ready p none s) (ho : s.locks.owns p (.buf b) = true) : Step s (brelse p b s)
  | mark {s : Sys} (p b : Nat) (d : Bool) (ho : s.locks.owns p (.buf b) = true) :
      Step s { s with bufs := Function.update s.bufs b { s.bufs b with dirty := d } }
  | kill {s : Sys} (q : Nat) : Step s { s with locks := rouse q s.locks }

/-- The tables after binit, iinit and initlog, whatever is in the buffers. -/
def boot (bufs : Nat → Buf) (inodes : Nat → Inode) (order : List Nat) : Sys :=
  ⟨⟨fun _ => false, fun _ _ => false, fun _ => none⟩, fun _ => none, fun i => { inodes i with ref := 0 }, bufs, order,
    fun _ => none, fun _ _ => none, fun _ => none⟩

inductive Reaches : Sys → Prop
  | boot (bufs : Nat → Buf) (inodes : Nat → Inode) (order : List Nat) : Reaches (boot bufs inodes order)
  | step {s s' : Sys} (h : Reaches s) (hs : Step s s') : Reaches s'

structure Inv (s : Sys) : Prop where
  safe : Safe s.locks
  waits : ∀ p i, s.locks.asleep p = some (.inode i) → ∃ t, s.calls p = some (.ilock t) ∧ s.refs t = some i
  calls : ∀ p t, s.calls p = some (.ilock t) → s.refs t ≠ none ∧ ∀ q, s.freeing q ≠ some t
  owners : ∀ p i, s.locks.owns p (.inode i) = true → ∃ t, s.refs t = some i ∧
    (s.via p i = some t ∨ s.freeing p = some t)
  via : ∀ p i t, s.via p i = some t → s.refs t = some i ∧ s.locks.owns p (.inode i) = true ∧ ∀ q, s.freeing q ≠ some t
  frees : ∀ p t, s.freeing p = some t → ∃ i, s.refs t = some i ∧ s.locks.owns p (.inode i) = true ∧ s.via p i = none
  finite : ∀ i, { t | s.refs t = some i }.Finite
  count : ∀ i, (s.inodes i).ref = { t | s.refs t = some i }.ncard

variable {s s' : Sys} {p q t i b : Nat}

theorem Inv.frame (h : Inv s) (hsafe : Safe s'.locks) (hrefs : s'.refs = s.refs) (hvia : s'.via = s.via)
    (hfree : s'.freeing = s.freeing) (hino : ∀ i, (s'.inodes i).ref = (s.inodes i).ref)
    (howns : ∀ p i, s'.locks.owns p (.inode i) = s.locks.owns p (.inode i))
    (hasleep : ∀ p i, s'.locks.asleep p = some (.inode i) → s.locks.asleep p = some (.inode i) ∧ s'.calls p = s.calls p)
    (hcalls : ∀ p t, s'.calls p = some (.ilock t) → s.calls p = some (.ilock t)) : Inv s' where
  safe := hsafe
  waits p i hp := by
    obtain ⟨hp', hc⟩ := hasleep p i hp
    rw [hc, hrefs]
    exact h.waits p i hp'
  calls p t hp := by
    rw [hrefs, hfree]
    exact h.calls p t (hcalls p t hp)
  owners p i ho := by
    rw [howns] at ho
    rw [hrefs, hvia, hfree]
    exact h.owners p i ho
  via p i t hv := by
    rw [hvia] at hv
    rw [hrefs, hfree, howns]
    exact h.via p i t hv
  frees p t hf := by
    rw [hfree] at hf
    obtain ⟨i, h₁, h₂, h₃⟩ := h.frees p t hf
    exact ⟨i, by rw [hrefs, h₁], by rw [howns, h₂], by rw [hvia, h₃]⟩
  finite i := by
    rw [hrefs]
    exact h.finite i
  count i := by
    rw [hino, hrefs]
    exact h.count i

theorem refs_added (f : Nat → Option Nat) (ht : f t = none) (i j : Nat) :
    { u | Function.update f t (some i) u = some j } = if j =
      i then insert t { u | f u = some j } else { u | f u = some j } := by
  ext u
  by_cases hu : u = t
  · subst hu
    by_cases hj : j = i
    · simp [hj]
    · simp [hj, ht, Ne.symm hj]
  · by_cases hj : j = i <;> simp [hu, hj]

theorem refs_removed (f : Nat → Option Nat) (ht : f t = some i) (j : Nat) :
    { u | Function.update f t none u = some j } = if j =
      i then { u | f u = some j } \ {t} else { u | f u = some j } := by
  ext u
  by_cases hu : u = t
  · subst hu
    by_cases hj : j = i
    · simp [hj]
    · simp [hj, ht, Ne.symm hj]
  · by_cases hj : j = i <;> simp [hu, hj]

theorem Inv.addRef (h : Inv s) (ht : s.refs t = none) (i : Nat) :
    Inv (setRef t (some i) (setInode i { s.inodes i with ref := (s.inodes i).ref + 1 } s)) := by
  have hkeep : ∀ u j, s.refs u = some j → Function.update s.refs t (some i) u = some j := by
    intro u j hu
    have hne : u ≠ t := fun he => by
      rw [he, ht] at hu
      cases hu
    rw [Function.update_of_ne hne, hu]
  refine ⟨h.safe, fun p j hp => ?_, fun p u hp => ?_, fun p j ho => ?_, fun p j u hv => ?_, fun p u hf => ?_, fun j =>
    ?_, fun j => ?_⟩
  · obtain ⟨u, hc, hu⟩ := h.waits p j hp
    exact ⟨u, hc, hkeep u j hu⟩
  · obtain ⟨hu, hf⟩ := h.calls p u hp
    obtain ⟨j, hj⟩ := Option.ne_none_iff_exists'.1 hu
    refine ⟨fun hn => ?_, hf⟩
    have := hkeep u j hj
    change Function.update s.refs t (some i) u = none at hn
    rw [hn] at this
    cases this
  · obtain ⟨u, hu, hor⟩ := h.owners p j ho
    exact ⟨u, hkeep u j hu, hor⟩
  · obtain ⟨hu, ho, hf⟩ := h.via p j u hv
    exact ⟨hkeep u j hu, ho, hf⟩
  · obtain ⟨j, hu, ho, hv⟩ := h.frees p u hf
    exact ⟨j, hkeep u j hu, ho, hv⟩
  · change { u | Function.update s.refs t (some i) u = some j }.Finite
    rw [refs_added s.refs ht]
    split
    · exact (h.finite j).insert t
    · exact h.finite j
  · change (Function.update s.inodes i _ j).ref = { u | Function.update s.refs t (some i) u = some j }.ncard
    rw [refs_added s.refs ht]
    by_cases hj : j = i
    · subst hj
      rw [if_pos rfl, Function.update_self, Set.ncard_insert_of_notMem (by simp [ht]) (h.finite j), ← h.count]
    · rw [if_neg hj, Function.update_of_ne hj]
      exact h.count j

theorem Inv.dropRef (h : Inv s) (ht : s.refs t = some i) (hu : Unused t s) :
    Inv (setRef t none (setInode i { s.inodes i with ref := (s.inodes i).ref - 1 } s)) := by
  have hkeep : ∀ u, u ≠ t → Function.update s.refs t none u = s.refs u := fun u hne => Function.update_of_ne hne _ _
  refine ⟨h.safe, fun p j hp => ?_, fun p u hp => ?_, fun p j ho => ?_, fun p j u hv => ?_, fun p u hf => ?_, fun j =>
    ?_, fun j => ?_⟩
  · obtain ⟨u, hc, hr⟩ := h.waits p j hp
    exact ⟨u, hc, (hkeep u fun he => hu.2.1 p (he ▸ hc)).trans hr⟩
  · obtain ⟨hr, hf⟩ := h.calls p u hp
    refine ⟨?_, hf⟩
    change Function.update s.refs t none u ≠ none
    rw [hkeep u fun he => hu.2.1 p (he ▸ hp)]
    exact hr
  · obtain ⟨u, hr, hor⟩ := h.owners p j ho
    refine ⟨u, (hkeep u fun he => ?_).trans hr, hor⟩
    rcases hor with hv | hf
    · exact hu.2.2 p j (he ▸ hv)
    · exact hu.1 p (he ▸ hf)
  · obtain ⟨hr, ho, hf⟩ := h.via p j u hv
    exact ⟨(hkeep u fun he => hu.2.2 p j (he ▸ hv)).trans hr, ho, hf⟩
  · obtain ⟨j, hr, ho, hv⟩ := h.frees p u hf
    exact ⟨j, (hkeep u fun he => hu.1 p (he ▸ hf)).trans hr, ho, hv⟩
  · change { u | Function.update s.refs t none u = some j }.Finite
    rw [refs_removed s.refs ht]
    split
    · exact (h.finite j).sdiff
    · exact h.finite j
  · change (Function.update s.inodes i _ j).ref = { u | Function.update s.refs t none u = some j }.ncard
    rw [refs_removed s.refs ht]
    by_cases hj : j = i
    · subst hj
      have hmem : t ∈ { u | s.refs u = some j } := ht
      rw [if_pos rfl, Function.update_self, Set.ncard_sdiff_singleton_of_mem hmem, ← h.count]
    · rw [if_neg hj, Function.update_of_ne hj]
      exact h.count j

theorem via_updated (f : Nat → Nat → Option Nat) (x : Option Nat) (j : Nat) :
    Function.update f p (Function.update (f p) i x) q j = if q = p ∧ j = i then x else f q j := by
  by_cases hq : q = p
  · subst hq
    by_cases hj : j = i <;> simp [hj]
  · simp [hq]

theorem calls_set (c : Option Call) : (setCall p c s).calls q = if q = p then c else s.calls q :=
  Function.update_apply ..

theorem not_owned (h : Inv s) (hb : s.locks.busy (.inode i) = false) (q : Nat) : s.locks.owns q (.inode i) ≠ true := by
  intro ho
  have := h.safe.owned q _ ho
  rw [hb] at this
  cases this

theorem Inv.ilockTake (h : Inv s) (hb : s.locks.busy (.inode i) = false) (hp : Ready p (some (.ilock t)) s)
    (ht : s.refs t = some i) (hf : ∀ q, s.freeing q ≠ some t) :
    Inv (setCall p none { s with
      locks := take p (.inode i) s.locks
      via := Function.update s.via p (Function.update (s.via p) i (some t)) }) := by
  refine ⟨h.safe.take hb, fun q j hq => ?_, fun q u hq => ?_, fun q j ho => ?_, fun q j u hv => ?_, fun q u hu => ?_,
    h.finite, h.count⟩
  · have hqp : q ≠ p := by
      rintro rfl
      have hq' : s.locks.asleep q = some (.inode j) := hq
      rw [hp.1] at hq'
      cases hq'
    rw [calls_set, if_neg hqp]
    exact h.waits q j hq
  · rw [calls_set] at hq
    split at hq
    · cases hq
    · exact h.calls q u hq
  · change (take p (.inode i) s.locks).owns q (.inode j) = true at ho
    change ∃ u, s.refs u = some j ∧
      (Function.update s.via p (Function.update (s.via p) i (some t)) q j = some u ∨ s.freeing q = some u)
    rw [via_updated]
    by_cases hc : q = p ∧ j = i
    · rw [if_pos hc, hc.2]
      exact ⟨t, ht, .inl rfl⟩
    · rw [owns_take, if_neg (by simpa using hc)] at ho
      rw [if_neg hc]
      exact h.owners q j ho
  · change Function.update s.via p (Function.update (s.via p) i (some t)) q j = some u at hv
    change s.refs u = some j ∧ (take p (.inode i) s.locks).owns q (.inode j) = true ∧ _
    rw [via_updated] at hv
    rw [owns_take]
    by_cases hc : q = p ∧ j = i
    · rw [if_pos hc] at hv
      cases hv
      rw [hc.1, hc.2]
      exact ⟨ht, if_pos ⟨rfl, rfl⟩, hf⟩
    · rw [if_neg hc] at hv
      rw [if_neg (by simpa using hc)]
      exact h.via q j u hv
  · obtain ⟨j, hr, ho, hv⟩ := h.frees q u hu
    have hj : j ≠ i := by
      rintro rfl
      exact not_owned h hb q ho
    refine ⟨j, hr, ?_, ?_⟩
    · change (take p (.inode i) s.locks).owns q (.inode j) = true
      rw [owns_take, if_neg (by simp [hj])]
      exact ho
    · change Function.update s.via p (Function.update (s.via p) i (some t)) q j = none
      rw [via_updated, if_neg fun hc => hj hc.2]
      exact hv

theorem Inv.ilockBlock (h : Inv s) (hb : s.locks.busy (.inode i) = true) (ht : s.refs t = some i)
    (hf : ∀ q, s.freeing q ≠ some t) :
    Inv (setCall p (some (.ilock t)) { s with locks := block p (.inode i) s.locks }) := by
  refine ⟨h.safe.block hb, fun q j hq => ?_, fun q u hq => ?_, h.owners, h.via, h.frees, h.finite, h.count⟩
  · change (block p (.inode i) s.locks).asleep q = some (.inode j) at hq
    rw [asleep_block] at hq
    rw [calls_set]
    by_cases hqp : q = p
    · rw [if_pos hqp] at hq ⊢
      cases hq
      exact ⟨t, rfl, ht⟩
    · rw [if_neg hqp] at hq ⊢
      exact h.waits q j hq
  · rw [calls_set] at hq
    split at hq
    · cases hq
      refine ⟨fun hn => ?_, hf⟩
      change s.refs t = none at hn
      rw [ht] at hn
      cases hn
    · exact h.calls q u hq

theorem ilock_inv (h : Inv s) (hp : Ready p (some (.ilock t)) s) (ht : s.refs t = some i)
    (hf : ∀ q, s.freeing q ≠ some t) :
    Inv (ilock p t i s) := by
  unfold ilock
  split
  · rename_i hb
    exact h.ilockBlock hb ht hf
  · rename_i hb
    exact h.ilockTake (by simpa using hb) hp ht hf

theorem asleep_dropped (j : Nat) (hq : (drop p (.inode i) s.locks).asleep q = some (.inode j)) :
    s.locks.asleep q = some (.inode j) := by
  rw [asleep_drop] at hq
  split at hq
  · cases hq
  · exact hq

theorem iunlock_inv (h : Inv s) (hv : s.via p i = some t) : Inv (iunlock p i s) := by
  obtain ⟨ht, ho, hf⟩ := h.via p i t hv
  refine ⟨h.safe.drop ho, fun q j hq => h.waits q j (asleep_dropped j hq), h.calls, fun q j hq => ?_,
    fun q j u hu => ?_,
    fun q u hu => ?_, h.finite, h.count⟩
  · change (drop p (.inode i) s.locks).owns q (.inode j) = true at hq
    rw [owns_drop] at hq
    change ∃ u, s.refs u = some j ∧
      (Function.update s.via p (Function.update (s.via p) i none) q j = some u ∨ s.freeing q = some u)
    rw [via_updated]
    by_cases hc : q = p ∧ j = i
    · rw [if_pos (by simpa using hc)] at hq
      cases hq
    · rw [if_neg (by simpa using hc)] at hq
      rw [if_neg hc]
      exact h.owners q j hq
  · change Function.update s.via p (Function.update (s.via p) i none) q j = some u at hu
    rw [via_updated] at hu
    by_cases hc : q = p ∧ j = i
    · rw [if_pos hc] at hu
      cases hu
    · rw [if_neg hc] at hu
      obtain ⟨hr, hown, hfree⟩ := h.via q j u hu
      refine ⟨hr, ?_, hfree⟩
      change (drop p (.inode i) s.locks).owns q (.inode j) = true
      rw [owns_drop, if_neg (by simpa using hc)]
      exact hown
  · obtain ⟨j, hr, hown, hnone⟩ := h.frees q u hu
    have hj : ¬(q = p ∧ j = i) := by
      rintro ⟨rfl, rfl⟩
      rw [hv] at hnone
      cases hnone
    refine ⟨j, hr, ?_, ?_⟩
    · change (drop p (.inode i) s.locks).owns q (.inode j) = true
      rw [owns_drop, if_neg (by simpa using hj)]
      exact hown
    · change Function.update s.via p (Function.update (s.via p) i none) q j = none
      rw [via_updated, if_neg hj]
      exact hnone

theorem Inv.iputTake (h : Inv s) (hb : s.locks.busy (.inode i) = false) (ht : s.refs t = some i) (hu : Unused t s)
    (hf : s.freeing p = none) :
    Inv { s with locks := take p (.inode i) s.locks, freeing := Function.update s.freeing p (some t) } := by
  have hfresh : ∀ u, u ≠ t → (∀ q, s.freeing q ≠ some u) → ∀ q, Function.update s.freeing p (some t) q ≠ some u := by
    intro u hne hfree q
    by_cases hq : q = p
    · rw [hq, Function.update_self]
      intro hc
      cases hc
      exact hne rfl
    · rw [Function.update_of_ne hq]
      exact hfree q
  have hmono : ∀ q j, s.locks.owns q (.inode j) = true → (take p (.inode i) s.locks).owns q (.inode j) = true := by
    intro q j ho
    rw [owns_take]
    split
    · rfl
    · exact ho
  refine ⟨h.safe.take hb, h.waits, fun q u hq => ?_, fun q j ho => ?_, fun q j u hv => ?_, fun q u hq => ?_,
    h.finite, h.count⟩
  · obtain ⟨hr, hfree⟩ := h.calls q u hq
    exact ⟨hr, hfresh u (fun he => hu.2.1 q (he ▸ hq)) hfree⟩
  · change (take p (.inode i) s.locks).owns q (.inode j) = true at ho
    change ∃ u, s.refs u = some j ∧ (s.via q j = some u ∨ Function.update s.freeing p (some t) q = some u)
    by_cases hc : q = p ∧ j = i
    · rw [hc.1, hc.2, Function.update_self]
      exact ⟨t, ht, .inr rfl⟩
    · rw [owns_take, if_neg (by simpa using hc)] at ho
      obtain ⟨u, hr, hor⟩ := h.owners q j ho
      refine ⟨u, hr, hor.imp_right fun hfree => ?_⟩
      have hqp : q ≠ p := by
        rintro rfl
        rw [hf] at hfree
        cases hfree
      rw [Function.update_of_ne hqp]
      exact hfree
  · obtain ⟨hr, ho, hfree⟩ := h.via q j u hv
    exact ⟨hr, hmono q j ho, hfresh u (fun he => hu.2.2 q j (he ▸ hv)) hfree⟩
  · change Function.update s.freeing p (some t) q = some u at hq
    by_cases hqp : q = p
    · subst hqp
      rw [Function.update_self] at hq
      cases hq
      refine ⟨i, ht, ?_, ?_⟩
      · change (take q (.inode i) s.locks).owns q (.inode i) = true
        rw [owns_take, if_pos ⟨rfl, rfl⟩]
      · change s.via q i = none
        cases hv : s.via q i with
        | none => rfl
        | some u => exact absurd (h.via q i u hv).2.1 (not_owned h hb q)
    · rw [Function.update_of_ne hqp] at hq
      obtain ⟨j, hr, ho, hv⟩ := h.frees q u hq
      exact ⟨j, hr, hmono q j ho, hv⟩

theorem iput_inv (h : Inv s) (ht : s.refs t = some i) (hu : Unused t s) (hf : s.freeing p = none)
    (hs : iput p t i s = some s') : Inv s' := by
  unfold iput at hs
  by_cases hlast : (s.inodes i).ref = 1 ∧ (s.inodes i).valid ∧ (s.inodes i).nlink = 0
  · rw [if_pos hlast] at hs
    by_cases hb : s.locks.busy (.inode i) = true
    · rw [if_pos hb] at hs
      cases hs
    · rw [if_neg hb] at hs
      cases hs
      exact h.iputTake (by simpa using hb) ht hu hf
  · rw [if_neg hlast] at hs
    cases hs
    exact h.dropRef ht hu

/-- The inode is freed and unlocked; the reference is still there, but nobody works by it. -/
theorem Inv.iputDrop (h : Inv s) (ht : s.refs t = some i) (hf : s.freeing p = some t) :
    Inv { s with locks := drop p (.inode i) s.locks, freeing := Function.update s.freeing p none } ∧
      Unused t { s with locks := drop p (.inode i) s.locks, freeing := Function.update s.freeing p none } := by
  obtain ⟨i', hr, hown, hnone⟩ := h.frees p t hf
  rw [ht] at hr
  cases hr
  have hfree : ∀ u, (∀ q, s.freeing q ≠ some u) → ∀ q, Function.update s.freeing p none q ≠ some u := by
    intro u hu q
    by_cases hq : q = p
    · rw [hq, Function.update_self]
      exact nofun
    · rw [Function.update_of_ne hq]
      exact hu q
  have hkeep : ∀ q j, ¬(q = p ∧ j = i) → s.locks.owns q (.inode j) = true →
      (drop p (.inode i) s.locks).owns q (.inode j) = true := by
    intro q j hc ho
    rw [owns_drop, if_neg (by simpa using hc)]
    exact ho
  refine ⟨⟨h.safe.drop hown, fun q j hq => h.waits q j (asleep_dropped j hq), fun q u hq => ?_, fun q j ho => ?_,
    fun q j u hv => ?_,
    fun q u hq => ?_, h.finite, h.count⟩, fun q => ?_, fun q hq => ?_, fun q j hv => ?_⟩
  · obtain ⟨hr, hu⟩ := h.calls q u hq
    exact ⟨hr, hfree u hu⟩
  · change (drop p (.inode i) s.locks).owns q (.inode j) = true at ho
    rw [owns_drop] at ho
    by_cases hc : q = p ∧ j = i
    · rw [if_pos (by simpa using hc)] at ho
      cases ho
    · rw [if_neg (by simpa using hc)] at ho
      obtain ⟨u, hr, hor⟩ := h.owners q j ho
      refine ⟨u, hr, hor.imp_right fun hu => ?_⟩
      have hqp : q ≠ p := by
        rintro rfl
        rw [hf] at hu
        cases hu
        rw [ht] at hr
        cases hr
        exact hc ⟨rfl, rfl⟩
      change Function.update s.freeing p none q = some u
      rw [Function.update_of_ne hqp]
      exact hu
  · obtain ⟨hr, ho, hu⟩ := h.via q j u hv
    refine ⟨hr, hkeep q j ?_ ho, hfree u hu⟩
    rintro ⟨rfl, rfl⟩
    change s.via q j = some u at hv
    rw [hnone] at hv
    cases hv
  · change Function.update s.freeing p none q = some u at hq
    by_cases hqp : q = p
    · rw [hqp, Function.update_self] at hq
      cases hq
    · rw [Function.update_of_ne hqp] at hq
      obtain ⟨j, hr, ho, hv⟩ := h.frees q u hq
      exact ⟨j, hr, hkeep q j (fun hc => hqp hc.1) ho, hv⟩
  · change Function.update s.freeing p none q ≠ some t
    by_cases hqp : q = p
    · rw [hqp, Function.update_self]
      exact nofun
    · rw [Function.update_of_ne hqp]
      intro hq
      obtain ⟨j, hr, ho, -⟩ := h.frees q t hq
      rw [ht] at hr
      cases hr
      exact hqp (h.safe.unique q p _ ho hown)
  · exact (h.calls q t hq).2 p hf
  · exact (h.via q j t hv).2.2 p hf

theorem Inv.sameRef (h : Inv s) (i : Nat) (x y : Inode) (hs : s.inodes i = x) (hr : y.ref = x.ref) :
    Inv (setInode i y s) := by
  refine h.frame h.safe rfl rfl rfl (fun j => ?_) (fun _ _ => rfl) (fun _ _ hq => ⟨hq, rfl⟩) fun _ _ hq => hq
  change (Function.update s.inodes i y j).ref = (s.inodes j).ref
  by_cases hj : j = i
  · rw [hj, Function.update_self, hs, hr]
  · rw [Function.update_of_ne hj]

theorem iput_finish_inv (h : Inv s) (ht : s.refs t = some i) (hf : s.freeing p = some t) :
    Inv (iput.finish p t i s) := by
  obtain ⟨h₁, hu⟩ := h.iputDrop ht hf
  have h₂ := (h₁.dropRef ht hu).sameRef i _ { s.inodes i with valid := false, ref := (s.inodes i).ref - 1 }
    (Function.update_self ..) rfl
  refine Eq.mp (congrArg Inv ?_) h₂
  unfold iput.finish setRef setInode
  simp only [Function.update_idem]

theorem idle_of_ref (h : Inv s) (hi : (s.inodes i).ref = 0) :
    (∀ q, s.locks.owns q (.inode i) = false) ∧ ∀ q, s.locks.asleep q ≠ some (.inode i) := by
  have hnone : ∀ u, s.refs u ≠ some i := by
    intro u hu
    have hcard := h.count i
    rw [hi] at hcard
    have hempty := (Set.ncard_eq_zero (h.finite i)).1 hcard.symm
    have hmem : u ∈ { u | s.refs u = some i } := hu
    rw [hempty] at hmem
    exact hmem
  refine ⟨fun q => ?_, fun q hq => ?_⟩
  · by_contra ho
    obtain ⟨u, hu, -⟩ := h.owners q i (by simpa using ho)
    exact hnone u hu
  · obtain ⟨u, -, hu⟩ := h.waits q i hq
    exact hnone u hu

theorem iget_inv (h : Inv s) (dev inum : Nat) (ht : s.refs t = none) (hs : iget dev inum t s = some s') : Inv s' := by
  unfold iget at hs
  split at hs
  · cases hs
    exact h.addRef ht _
  · split at hs
    · cases hs
    · rename_i i hi
      cases hs
      have hi : (s.inodes i).ref = 0 := by simpa using List.find?_some hi
      obtain ⟨ho, hw⟩ := idle_of_ref h hi
      have h₁ : Inv { s with locks := reset (.inode i) s.locks } :=
        h.frame (h.safe.reset ho hw) rfl rfl rfl (fun _ => rfl) (fun _ _ => rfl)
          (fun _ _ hq => ⟨hq, rfl⟩) fun _ _ hq => hq
      have h₂ := (h₁.addRef ht i).sameRef i _ { s.inodes i with dev := dev, inum := inum, ref := 1, valid := false }
        (Function.update_self ..) (by rw [hi])
      refine Eq.mp (congrArg Inv ?_) h₂
      unfold setRef setInode
      simp only [Function.update_idem]

section

variable {c : Chan} (hc : ∀ i, c ≠ .inode i)
include hc

theorem Inv.takeOther (h : Inv s) (hb : s.locks.busy c = false) (hp : s.locks.asleep p = none) (bufs : Nat → Buf) :
    Inv (setCall p none { s with bufs := bufs, locks := take p c s.locks }) := by
  refine h.frame (h.safe.take hb) rfl rfl rfl (fun _ => rfl) (fun q i => ?_) (fun q i hq => ?_) fun q t hq => ?_
  · change (take p c s.locks).owns q (.inode i) = _
    rw [owns_take, if_neg fun he => hc i he.2.symm]
  · change s.locks.asleep q = some (.inode i) at hq
    refine ⟨hq, ?_⟩
    have hqp : q ≠ p := by
      rintro rfl
      rw [hp] at hq
      cases hq
    rw [calls_set, if_neg hqp]
  · rw [calls_set] at hq
    split at hq
    · cases hq
    · exact hq

theorem Inv.blockOther (h : Inv s) (hb : s.locks.busy c = true) {k : Call} (hk : ∀ t, k ≠ .ilock t) :
    Inv (setCall p (some k) { s with locks := block p c s.locks }) := by
  refine h.frame (h.safe.block hb) rfl rfl rfl (fun _ => rfl) (fun _ _ => rfl) (fun q i hq => ?_) fun q t hq => ?_
  · change (block p c s.locks).asleep q = some (.inode i) at hq
    rw [asleep_block] at hq
    by_cases hqp : q = p
    · rw [if_pos hqp] at hq
      exact absurd (Option.some.inj hq) (hc i)
    · rw [if_neg hqp] at hq
      rw [calls_set, if_neg hqp]
      exact ⟨hq, rfl⟩
  · rw [calls_set] at hq
    split at hq
    · exact absurd (Option.some.inj hq) (hk t)
    · exact hq

theorem Inv.dropOther (h : Inv s) (ho : s.locks.owns p c = true) (order : List Nat) :
    Inv { s with order := order, locks := drop p c s.locks } := by
  refine h.frame (h.safe.drop ho) rfl rfl rfl (fun _ => rfl) (fun q i => ?_) (fun q i hq => ?_) fun _ _ hq => hq
  · change (drop p c s.locks).owns q (.inode i) = _
    rw [owns_drop, if_neg fun he => hc i he.2.symm]
  · change (drop p c s.locks).asleep q = some (.inode i) at hq
    rw [asleep_drop] at hq
    split at hq
    · cases hq
    · exact ⟨hq, rfl⟩

end

theorem beginTrans_inv (h : Inv s) (hp : Ready p (some .beginTrans) s) : Inv (beginTrans p s) := by
  unfold beginTrans
  split
  · rename_i hb
    exact h.blockOther (by simp) hb (by simp)
  · rename_i hb
    exact h.takeOther (by simp) (by simpa using hb) hp.1 s.bufs

theorem bget_inv (h : Inv s) (dev sector : Nat) (hp : Ready p (some (.bget dev sector)) s)
    (hs : bget p dev sector s = some s') :
    Inv s' := by
  unfold bget at hs
  split at hs
  · rename_i b hb
    cases hs
    split
    · rename_i hbusy
      exact h.blockOther (by simp) hbusy (by simp)
    · rename_i hbusy
      exact h.takeOther (by simp) (by simpa using hbusy) hp.1 s.bufs
  · split at hs
    · cases hs
    · rename_i b hb
      cases hs
      have hfree := List.find?_some hb
      simp only [Bool.not_eq_true, decide_eq_true_eq] at hfree
      exact h.takeOther (by simp) hfree.1 hp.1 _

/-- kill makes a sleeper run, which then tests its flag again. -/
theorem kill_inv (h : Inv s) (q : Nat) : Inv { s with locks := rouse q s.locks } := by
  refine h.frame h.safe.rouse rfl rfl rfl (fun _ => rfl) (fun _ _ => rfl) (fun r i hr => ?_) fun _ _ hr => hr
  change (rouse q s.locks).asleep r = some (.inode i) at hr
  rw [asleep_rouse] at hr
  split at hr
  · cases hr
  · exact ⟨hr, rfl⟩

theorem step_inv (h : Inv s) (hs : Step s s') : Inv s' := by
  cases hs with
  | beginTrans p hp => exact beginTrans_inv h hp
  | commitTrans p hp ho => exact h.dropOther (by simp) ho s.order
  | ilock p t i hp ht hf => exact ilock_inv h hp ht hf
  | load p i n ho => exact h.sameRef i (s.inodes i) _ rfl rfl
  | iunlock p t i hp hv => exact iunlock_inv h hv
  | iget dev inum t ht hs => exact iget_inv h dev inum ht hs
  | idup i t t' ht ht' => exact h.addRef ht' i
  | iput p t i hp ht hu hf hs => exact iput_inv h ht hu hf hs
  | iputFinish p t i hp ht hf => exact iput_finish_inv h ht hf
  | bget p dev sector hp hs => exact bget_inv h dev sector hp hs
  | brelse p b hp ho => exact h.dropOther (by simp) ho _
  | mark p b d ho =>
      exact h.frame h.safe rfl rfl rfl (fun _ => rfl) (fun _ _ => rfl) (fun _ _ hq => ⟨hq, rfl⟩) fun _ _ hq => hq
  | kill q => exact kill_inv h q

theorem boot_inv (bufs : Nat → Buf) (inodes : Nat → Inode) (order : List Nat) : Inv (boot bufs inodes order) := by
  refine ⟨⟨nofun, nofun, nofun⟩, nofun, nofun, nofun, nofun, nofun, fun i => ?_, fun i => ?_⟩
  · change { t | (none : Option Nat) = some i }.Finite
    simp
  · change 0 = { t | (none : Option Nat) = some i }.ncard
    simp

theorem Reaches.inv (h : Reaches s) : Inv s := by
  induction h with
  | boot bufs inodes order => exact boot_inv bufs inodes order
  | step _ hs ih => exact step_inv ih hs

/-- In any interleaving a long-term lock has one owner, whose flag is set, and nobody sleeps on
a lock whose flag is clear. -/
theorem long_term_locks (h : Reaches s) (c : Chan) :
    (∀ p q, s.locks.owns p c = true → s.locks.owns q c = true → p = q) ∧
      (∀ p, s.locks.owns p c = true → s.locks.busy c = true) ∧
      (s.locks.busy c = false → ∀ p, s.locks.asleep p ≠ some c) := by
  have hsafe := h.inv.safe
  refine ⟨fun p q hp hq => hsafe.unique p q c hp hq, fun p hp => hsafe.owned p c hp, fun hb p hp => ?_⟩
  have hbusy := hsafe.waits p c hp
  rw [hb] at hbusy
  cases hbusy

def contended : Sys := beginTrans 1 (beginTrans 0 (boot (fun _ => ⟨0, 0, false⟩) (fun _ => ⟨0, 0, 0, false, 0⟩) []))

theorem contended_reaches : Reaches contended :=
  .step (.step (.boot _ _ _) (.beginTrans 0 ⟨rfl, .inl rfl⟩)) (.beginTrans 1 ⟨rfl, .inl rfl⟩)

theorem long_term_locks_contended :
    contended.locks.asleep 1 = some .log ∧ contended.locks.owns 0 .log = true ∧
      (∀ q, contended.locks.owns q .log = true → q = 0) ∧ contended.locks.busy .log = true := by
  have h := long_term_locks contended_reaches .log
  have hown : contended.locks.owns 0 .log = true := by decide
  exact ⟨by decide, hown, fun q hq => h.1 q 0 hq hown, h.2.1 0 hown⟩

end ArmXv6.LongLocks
