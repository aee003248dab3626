import ArmXv6.Quiet

namespace ArmXv6.InodeRefs

open Lib.Exec Lib.Bytes Param Blocks Fs Content Sysfile Quiet

/-- The running call holds the references R beyond those counted by r, and the locks L. -/
structure At (r : Nat → Nat) (R L : List Nat) (fs : Fs) : Prop where
  ref : ∀ i < NINODE, (fs.icache i).ref = r i + R.count i
  busy : ∀ i < NINODE, (fs.icache i).busy = true ↔ i ∈ L
  locked : ∀ i ∈ L, i ∈ R
  bound : ∀ i ∈ R, i < NINODE

variable {r : Nat → Nat} {R R' L L' : List Nat} {fs fs' : Fs} {ip dp : Nat} {ok : Stop → Prop}

theorem At.of_pins (h : At r R L fs) (e : pins fs' = pins fs) : At r R L fs' where
  ref i hi := by
    rw [← h.ref i hi]
    exact congrArg Prod.fst (congrFun e i)
  busy i hi := by
    rw [← h.busy i hi]
    exact (congrArg (fun x => x.2 = true) (congrFun e i)).to_iff
  locked := h.locked
  bound := h.bound

theorem At.perm (h : At r R L fs) (hR : R.Perm R') (hL : ∀ i, i ∈ L ↔ i ∈ L') : At r R' L' fs where
  ref i hi := by rw [h.ref i hi, hR.count_eq]
  busy i hi := (h.busy i hi).trans (hL i)
  locked i hi := hR.mem_iff.mp (h.locked i ((hL i).mpr hi))
  bound i hi := h.bound i (hR.mem_iff.mpr hi)

theorem At.swap {i j : Nat} (h : At r (i :: j :: R) L fs) : At r (j :: i :: R) L fs :=
  h.perm (.swap j i R) fun _ => Iff.rfl

theorem At.quiet {α : Type} {m : FsM α} (h : At r R L fs) (hm : Stable ok pins m) :
    (m fs).Holds (fun _ => True) (fun _ fs' => At r R L fs') fun w _ => ok w :=
  hm.holds fs fun _ e => h.of_pins e

theorem At.set {x : Inode} (h : At r R L fs) (hb : ∀ i ∈ R', i < NINODE) (hl : ∀ i ∈ L', i ∈ R')
    (hcount : ∀ i, i ≠ ip → R'.count i = R.count i) (hmem : ∀ i, i ≠ ip → (i ∈ L' ↔ i ∈ L))
    (hr : ip < NINODE → x.ref = r ip + R'.count ip) (hx : ip < NINODE → (x.busy = true ↔ ip ∈ L')) :
    At r R' L' { fs with icache := Function.update fs.icache ip x } where
  ref i hi := by
    by_cases e : i = ip
    · subst e
      simpa using hr hi
    · simpa [e, hcount i e] using h.ref i hi
  busy i hi := by
    by_cases e : i = ip
    · subst e
      simpa using hx hi
    · simpa [e, hmem i e] using h.busy i hi
  locked := hl
  bound := hb

theorem At.take (h : At r R L fs) {x : Inode} (hip : ip < NINODE) (hx : x.ref = (fs.icache ip).ref + 1)
    (hb : x.busy = (fs.icache ip).busy) :
    At r (ip :: R) L { fs with icache := Function.update fs.icache ip x } := by
  refine h.set ?_ (fun i hi => List.mem_cons_of_mem _ (h.locked i hi)) (fun i e => List.count_cons_of_ne (Ne.symm e))
    (fun _ _ => Iff.rfl) (fun _ => ?_) fun _ => ?_
  · intro i hi
    rcases List.mem_cons.mp hi with rfl | hi
    · exact hip
    · exact h.bound i hi
  · rw [hx, h.ref ip hip, List.count_cons_self, Nat.add_assoc]
  · rw [hb]
    exact h.busy ip hip

theorem idup_refs (h : At r R L fs) (hip : ip < NINODE) :
    (idup ip fs).Holds (fun _ => True) (fun a fs' => a = ip ∧ At r (ip :: R) L fs') fun w _ => ok w := by
  unfold idup setInode
  rw [holds_bind, holds_update, holds_pure]
  exact ⟨rfl, h.take hip rfl rfl⟩

theorem iget_refs (hok : Below ok) (h : At r R L fs) (dev inum : Nat) :
    (iget dev inum fs).Holds (fun _ => True) (fun ip fs' => ip < NINODE ∧ At r (ip :: R) L fs') fun w _ => ok w := by
  unfold iget
  rw [holds_bind, holds_fetch]
  cases hf : (List.range NINODE).find? fun i =>
      0 < (fs.icache i).ref ∧ (fs.icache i).dev = dev ∧ (fs.icache i).inum = inum with
  | some ip =>
      dsimp only
      have hip : ip < NINODE := List.mem_range.mp (List.mem_of_find?_eq_some hf)
      unfold setInode
      rw [holds_bind, holds_update, holds_pure]
      exact ⟨hip, h.take hip rfl rfl⟩
  | none =>
      dsimp only
      cases he : (List.range NINODE).find? fun i => (fs.icache i).ref = 0 with
      | some ip =>
          dsimp only
          have hip : ip < NINODE := List.mem_range.mp (List.mem_of_find?_eq_some he)
          have hz : (fs.icache ip).ref = 0 := by simpa using List.find?_some he
          -- a recycled entry is not held, so its lock was free
          have hfree : (fs.icache ip).busy = false := by
            rw [← Bool.not_eq_true, h.busy ip hip]
            intro hl
            have := List.count_pos_iff.mpr (h.locked ip hl)
            have := h.ref ip hip
            omega
          unfold setInode
          rw [holds_bind, holds_update, holds_pure]
          exact ⟨hip, h.take hip (by rw [hz]) hfree.symm⟩
      | none =>
          dsimp only
          rw [holds_panic]
          exact hok.2 _ (by decide) (by decide)

theorem ilock_refs (hok : Below ok) (h : At r R L fs) (hip : ip ∈ R) :
    (ilock ip fs).Holds (fun _ => True) (fun _ fs' => ip ∉ L ∧ At r R (ip :: L) fs') fun w _ => ok w := by
  unfold ilock
  rw [holds_bind, holds_fetch, holds_ite]
  refine ⟨fun _ => by rw [holds_panic]; exact hok.2 _ (by decide) (by decide), fun _ => ?_⟩
  rw [holds_ite]
  refine ⟨fun _ => by rw [holds_sleep]; exact hok.1, fun hbusy => ?_⟩
  have hnot : ip ∉ L := fun hl => hbusy ((h.busy ip (h.bound ip hip)).mpr hl)
  unfold setInode
  rw [holds_bind, holds_update]
  have h' : At r R (ip :: L)
      { fs with icache := Function.update fs.icache ip { fs.icache ip with busy := true } } := by
    refine h.set h.bound ?_ (fun _ _ => rfl) (fun i e => by simp [e]) (fun hi => h.ref ip hi) fun _ => by simp
    intro i hi
    rcases List.mem_cons.mp hi with rfl | hi
    · exact hip
    · exact h.locked i hi
  refine (h'.quiet ?_).mono (fun _ _ h'' => ⟨hnot, h''⟩) fun _ _ => id
  refine .ite (.bind (quiet_bread hok _) fun bp => .bind (quiet_brelse _) fun _ => ?_) (.pure _)
  refine .bind (.update fun fs => pins_setInode fs ip _ rfl rfl) fun _ => ?_
  exact .ite (.panic (hok.2 _ (by decide) (by decide))) (.pure _)

theorem iunlock_refs (hok : Below ok) (h : At r R (ip :: L) fs) (hn : ip ∉ L) :
    (iunlock ip fs).Holds (fun _ => True) (fun _ fs' => At r R L fs') fun w _ => ok w := by
  unfold iunlock
  rw [holds_bind, holds_fetch, holds_ite]
  refine ⟨fun _ => by rw [holds_panic]; exact hok.2 _ (by decide) (by decide), fun _ => ?_⟩
  unfold setInode
  rw [holds_update]
  refine h.set h.bound (fun i hi => h.locked i (List.mem_cons_of_mem _ hi)) (fun _ _ => rfl) (fun i e => by simp [e])
    (fun hi => h.ref ip hi) fun _ => ?_
  simp [hn]

theorem count_tail_of_ne {i : Nat} (e : i ≠ ip) : R.count i = (ip :: R).count i :=
  (List.count_cons_of_ne (Ne.symm e)).symm

theorem iput_refs (hok : Below ok) (h : At r (ip :: R) L fs) (hl : ∀ i ∈ L, i ∈ R) :
    (iput ip fs).Holds (fun _ => True) (fun _ fs' => At r R L fs') fun w _ => ok w := by
  have hip : ip < NINODE := h.bound ip List.mem_cons_self
  have hbound : ∀ i ∈ R, i < NINODE := fun i hi => h.bound i (List.mem_cons_of_mem _ hi)
  -- the reference is dropped from any state with the same counts
  have hdrop : ∀ fs', At r (ip :: R) L fs' →
      (setInode ip (fun i => { i with ref := i.ref - 1 }) fs').Holds (fun _ => True)
        (fun _ fs'' => At r R L fs'') fun w _ => ok w := by
    intro fs' h'
    unfold setInode
    rw [holds_update]
    refine h'.set hbound hl (fun i e => count_tail_of_ne e) (fun _ _ => Iff.rfl) (fun _ => ?_)
      fun _ => h'.busy ip hip
    have := h'.ref ip hip
    rw [List.count_cons_self] at this
    change (fs'.icache ip).ref - 1 = _
    omega
  unfold iput
  rw [holds_bind, holds_fetch, holds_bind, holds_ite]
  refine ⟨fun hlast => ?_, fun _ => by rw [holds_pure]; exact hdrop fs h⟩
  rw [holds_ite]
  refine ⟨fun _ => by rw [holds_panic]; exact hok.2 _ (by decide) (by decide), fun hbusy => ?_⟩
  have hnot : ip ∉ L := fun hm => hbusy ((h.busy ip hip).mpr hm)
  have hmine : ∀ i ∈ ip :: L, i ∈ ip :: R := by
    intro i hi
    rcases List.mem_cons.mp hi with rfl | hi
    · exact List.mem_cons_self
    · exact List.mem_cons_of_mem _ (hl i hi)
  have hset : At r (ip :: R) (ip :: L)
      { fs with icache := Function.update fs.icache ip { fs.icache ip with busy := true } } :=
    h.set h.bound hmine (fun _ _ => rfl) (fun i e => by simp [e]) (fun hi => h.ref ip hi) fun _ => by simp
  have hquiet : Stable ok pins (do
      itrunc ip
      setDin ip fun d => { d with type := 0 }
      iupdate ip : FsM Unit) :=
    .bind (quiet_itrunc hok ip) fun _ => .bind (quiet_setDin _ _) fun _ => quiet_iupdate hok ip
  have hall := (hset.quiet hquiet).mono
    (fun _ fs' (h' : At r (ip :: R) (ip :: L) fs') =>
      (h'.set (x := { fs'.icache ip with busy := false, valid := false })
      h.bound h.locked (fun _ _ => rfl) (fun i e => by simp [e]) (fun hi => h'.ref ip hi) fun _ => by simp [hnot]))
    (fun _ _ => id)
  unfold setInode at hdrop ⊢
  simp only [holds_bind, holds_update] at hall ⊢
  refine hall.mono (fun _ fs₁ h₁ => h₁.mono (fun _ fs₂ h₂ => h₂.mono (fun _ fs₃ h₃ => ?_) fun _ _ => id) fun _ _ => id)
    fun _ _ => id
  have := hdrop _ h₃
  rwa [holds_update] at this

theorem iunlockput_refs (hok : Below ok) (h : At r (ip :: R) (ip :: L) fs) (hn : ip ∉ L) (hl : ∀ i ∈ L, i ∈ R) :
    (iunlockput ip fs).Holds (fun _ => True) (fun _ fs' => At r R L fs') fun w _ => ok w := by
  unfold iunlockput
  rw [holds_bind]
  exact (iunlock_refs hok h hn).mono (fun _ _ h' => iput_refs hok h' hl) fun _ _ => id

/-- Unlocking and locking again, as the console driver does with something quiet between. -/
theorem relock_refs {α : Type} {m : FsM α} (hok : Below ok) (h : At r R L fs) (hip : ip ∈ R) (hm : Stable ok pins m) :
    ((do iunlock ip; let a ← m; ilock ip; pure a : FsM α) fs).Holds (fun _ => True) (fun _ fs' => At r R L fs')
      fun w _ => ok w := by
  by_cases hl : ip ∈ L
  · have hmem : ∀ i, i ∈ L ↔ i ∈ ip :: L.filter (· ≠ ip) := by
      intro i
      by_cases e : i = ip
      · subst e; simp [hl]
      · simp [e]
    have hn : ip ∉ L.filter (· ≠ ip) := by simp
    rw [holds_bind]
    refine (iunlock_refs hok (h.perm (.refl R) hmem) hn).mono (fun _ fs₁ h₁ => ?_) fun _ _ => id
    rw [holds_bind]
    refine (h₁.quiet hm).mono (fun a fs₂ h₂ => ?_) fun _ _ => id
    rw [holds_bind]
    refine (ilock_refs hok h₂ hip).mono (fun _ fs₃ h₃ => ?_) fun _ _ => id
    rw [holds_pure]
    exact h₃.2.perm (.refl R) fun i => (hmem i).symm
  · have hb : ¬(fs.icache ip).busy = true := fun hb => hl ((h.busy ip (h.bound ip hip)).mp hb)
    unfold iunlock
    rw [holds_bind, holds_bind, holds_fetch, holds_ite]
    exact ⟨fun _ => by rw [holds_panic]; exact hok.2 _ (by decide) (by decide),
      fun hc => absurd (.inl (by simpa using hb)) hc⟩

theorem readi_refs (hok : Below ok) (h : At r R L fs) (hip : ip ∈ R) (off n : Nat) :
    (readi ip off n fs).Holds (fun _ => True) (fun _ fs' => At r R L fs') fun w _ => ok w := by
  unfold readi
  rw [holds_bind, holds_fetch, holds_ite]
  refine ⟨fun _ => ?_, fun _ => ?_⟩
  · rw [holds_ite]
    refine ⟨fun _ => ?_, fun _ => by rw [holds_pure]; exact h⟩
    unfold consoleread
    have := relock_refs hok h hip (quiet_console_loop hok (sint n).toNat [])
    simp only [holds_bind, holds_pure] at this ⊢
    exact this
  · rw [holds_ite]
    refine ⟨fun _ => by rw [holds_pure]; exact h, fun _ => ?_⟩
    exact h.quiet (.bind (quiet_readi_loop hok _ _ _ _ _ _) fun _ => .pure _)

theorem writei_refs (hok : Below ok) (h : At r R L fs) (hip : ip ∈ R) (src : Nat → UInt8) (off n : Nat) :
    (writei ip src off n fs).Holds (fun _ => True) (fun _ fs' => At r R L fs') fun w _ => ok w := by
  unfold writei
  rw [holds_bind, holds_fetch, holds_ite]
  refine ⟨fun _ => ?_, fun _ => ?_⟩
  · rw [holds_ite]
    refine ⟨fun _ => ?_, fun _ => by rw [holds_pure]; exact h⟩
    unfold consolewrite
    have := relock_refs hok h hip (.pure ())
    simp only [holds_bind, holds_pure] at this ⊢
    exact this
  · rw [holds_ite]
    refine ⟨fun _ => by rw [holds_pure]; exact h, fun _ => ?_⟩
    rw [holds_ite]
    refine ⟨fun _ => by rw [holds_pure]; exact h, fun _ => ?_⟩
    refine h.quiet (.bind (quiet_writei_loop hok _ _ _ _ _ _) fun _ => .bind .fetch fun fs => ?_)
    split
    case isTrue => exact .bind (quiet_setDin _ _) fun _ => .bind (quiet_iupdate hok _) fun _ => .pure _
    case isFalse => exact .bind (.pure _) fun _ => .pure _

theorem dirlookup_loop_refs (hok : Below ok) (hdp : dp ∈ R) (name : List UInt8) (fuel off : Nat)
    (h : At r R L fs) :
    (dirlookup.loop dp name fuel off fs).Holds (fun _ => True)
      (fun a fs' => match a with
        | none => At r R L fs'
        | some x => x.1 < NINODE ∧ At r (x.1 :: R) L fs') fun w _ => ok w := by
  induction fuel generalizing off fs with
  | zero =>
      unfold dirlookup.loop
      rw [holds_pure]
      exact h
  | succ fuel ih =>
      unfold dirlookup.loop
      rw [holds_bind, holds_fetch, holds_ite]
      refine ⟨fun _ => ?_, fun _ => by rw [holds_pure]; exact h⟩
      rw [holds_bind]
      refine (readi_refs hok h hdp off DESIZE).mono (fun a fs₁ h₁ => ?_) fun _ _ => id
      rw [holds_ite]
      refine ⟨fun _ => by rw [holds_panic]; exact hok.2 _ (by decide) (by decide), fun _ => ?_⟩
      rw [holds_ite]
      refine ⟨fun _ => ?_, fun _ => ih _ h₁⟩
      rw [holds_bind]
      refine (iget_refs hok h₁ _ _).mono (fun ip fs₂ h₂ => ?_) fun _ _ => id
      rw [holds_pure]
      exact h₂

theorem dirlookup_refs (hok : Below ok) (h : At r R L fs) (hdp : dp ∈ R) (name : List UInt8) :
    (dirlookup dp name fs).Holds (fun _ => True)
      (fun a fs' => match a with
        | none => At r R L fs'
        | some x => x.1 < NINODE ∧ At r (x.1 :: R) L fs') fun w _ => ok w := by
  unfold dirlookup
  rw [holds_bind, holds_fetch, holds_ite]
  exact ⟨fun _ => by rw [holds_panic]; exact hok.2 _ (by decide) (by decide),
    fun _ => dirlookup_loop_refs hok hdp name _ _ h⟩

theorem dirlink_scan_refs (hok : Below ok) (hdp : dp ∈ R) (fuel off : Nat) (h : At r R L fs) :
    (dirlink.scan dp fuel off fs).Holds (fun _ => True) (fun _ fs' => At r R L fs') fun w _ => ok w := by
  induction fuel generalizing off fs with
  | zero =>
      unfold dirlink.scan
      rw [holds_pure]
      exact h
  | succ fuel ih =>
      unfold dirlink.scan
      rw [holds_bind, holds_fetch, holds_ite]
      refine ⟨fun _ => ?_, fun _ => by rw [holds_pure]; exact h⟩
      rw [holds_bind]
      refine (readi_refs hok h hdp off DESIZE).mono (fun a fs₁ h₁ => ?_) fun _ _ => id
      rw [holds_ite]
      refine ⟨fun _ => by rw [holds_panic]; exact hok.2 _ (by decide) (by decide), fun _ => ?_⟩
      rw [holds_ite]
      exact ⟨fun _ => by rw [holds_pure]; exact h₁, fun _ => ih _ h₁⟩

theorem dirlink_refs (hok : Below ok) (h : At r R L fs) (hdp : dp ∈ R) (name : List UInt8) (inum : Nat) :
    (dirlink dp name inum fs).Holds (fun _ => True) (fun _ fs' => At r R L fs') fun w _ => ok w := by
  unfold dirlink
  rw [holds_bind]
  refine (dirlookup_refs hok h hdp name).mono (fun a fs₁ h₁ => ?_) fun _ _ => id
  cases a with
  | some x =>
      dsimp only
      rw [holds_bind]
      refine (iput_refs hok h₁.2 h.locked).mono (fun _ fs₂ h₂ => ?_) fun _ _ => id
      rw [holds_pure]
      exact h₂
  | none =>
      dsimp only
      rw [holds_bind, holds_fetch, holds_bind]
      refine (dirlink_scan_refs hok hdp _ _ h₁).mono (fun off fs₂ h₂ => ?_) fun _ _ => id
      rw [holds_bind]
      refine (writei_refs hok h₂ hdp _ _ _).mono (fun a fs₃ h₃ => ?_) fun _ _ => id
      rw [holds_ite]
      exact ⟨fun _ => by rw [holds_panic]; exact hok.2 _ (by decide) (by decide), fun _ => by rw [holds_pure]; exact h₃⟩

theorem ialloc_loop_refs (hok : Below ok) (dev type : Nat) (sb : Superblock) (fuel inum : Nat) (h : At r R L fs) :
    (ialloc.loop dev type sb fuel inum fs).Holds (fun _ => True)
      (fun ip fs' => ip < NINODE ∧ At r (ip :: R) L fs') fun w _ => ok w := by
  induction fuel generalizing inum fs with
  | zero =>
      unfold ialloc.loop
      rw [holds_panic]
      exact hok.2 _ (by decide) (by decide)
  | succ fuel ih =>
      unfold ialloc.loop
      rw [holds_ite]
      refine ⟨fun _ => ?_, fun _ => by rw [holds_panic]; exact hok.2 _ (by decide) (by decide)⟩
      rw [holds_bind]
      refine (h.quiet (quiet_bread hok _)).mono (fun bp fs₁ h₁ => ?_) fun _ _ => id
      rw [holds_ite]
      refine ⟨fun _ => ?_, fun _ => ?_⟩
      · rw [holds_bind]
        refine (h₁.quiet (quiet_logWrite hok _ _)).mono (fun _ fs₂ h₂ => ?_) fun _ _ => id
        rw [holds_bind]
        refine (h₂.quiet (quiet_brelse _)).mono (fun _ fs₃ h₃ => ?_) fun _ _ => id
        exact iget_refs hok h₃ dev inum
      · rw [holds_bind]
        exact (h₁.quiet (quiet_brelse _)).mono (fun _ fs₂ h₂ => ih _ h₂) fun _ _ => id

theorem ialloc_refs (hok : Below ok) (h : At r R L fs) (dev type : Nat) :
    (ialloc dev type fs).Holds (fun _ => True) (fun ip fs' => ip < NINODE ∧ At r (ip :: R) L fs')
      fun w _ => ok w := by
  unfold ialloc
  rw [holds_bind]
  exact (h.quiet (quiet_readsb hok)).mono (fun sb fs₁ h₁ => ialloc_loop_refs hok dev type sb _ _ h₁) fun _ _ => id

/-- A walk ends with one reference in place of the one it started with, or with none. -/
theorem namex_loop_refs (hok : Below ok) (parent : Bool) (fuel : Nat) (path name : List UInt8)
    (h : At r (ip :: R) L fs) (hl : ∀ i ∈ L, i ∈ R) :
    (namex.loop parent fuel ip path name fs).Holds (fun _ => True)
      (fun a fs' => match a with
        | none => At r R L fs' ∨ fuel ≤ path.length
        | some x => x.1 < NINODE ∧ At r (x.1 :: R) L fs') fun w _ => ok w := by
  induction fuel generalizing ip path name fs with
  | zero =>
      unfold namex.loop
      rw [holds_pure]
      exact .inr (Nat.zero_le _)
  | succ fuel ih =>
      unfold namex.loop
      cases hs : skipelem path with
      | none =>
          dsimp only
          rw [holds_ite]
          refine ⟨fun _ => ?_, fun _ => by rw [holds_pure]; exact ⟨h.bound ip List.mem_cons_self, h⟩⟩
          rw [holds_bind]
          refine (iput_refs hok h hl).mono (fun _ fs₁ h₁ => ?_) fun _ _ => id
          rw [holds_pure]
          exact .inl h₁
      | some x =>
          obtain ⟨path', name'⟩ := x
          dsimp only
          rw [holds_bind]
          refine (ilock_refs hok h List.mem_cons_self).mono (fun _ fs₁ h₁ => ?_) fun _ _ => id
          obtain ⟨hn, h₁⟩ := h₁
          rw [holds_bind, holds_fetch, holds_ite]
          refine ⟨fun _ => ?_, fun _ => ?_⟩
          · rw [holds_bind]
            refine (iunlockput_refs hok h₁ hn hl).mono (fun _ fs₂ h₂ => ?_) fun _ _ => id
            rw [holds_pure]
            exact .inl h₂
          · rw [holds_ite]
            refine ⟨fun _ => ?_, fun _ => ?_⟩
            · rw [holds_bind]
              refine (iunlock_refs hok h₁ hn).mono (fun _ fs₂ h₂ => ?_) fun _ _ => id
              rw [holds_pure]
              exact ⟨h₂.bound ip List.mem_cons_self, h₂⟩
            · rw [holds_bind]
              refine (dirlookup_refs hok h₁ List.mem_cons_self name').mono (fun a fs₂ h₂ => ?_) fun _ _ => id
              cases a with
              | none =>
                  dsimp only
                  rw [holds_bind]
                  refine (iunlockput_refs hok h₂ hn hl).mono (fun _ fs₃ h₃ => ?_) fun _ _ => id
                  rw [holds_pure]
                  exact .inl h₃
              | some y =>
                  obtain ⟨next, off⟩ := y
                  dsimp only at h₂ ⊢
                  rw [holds_bind]
                  refine (iunlockput_refs hok h₂.2.swap hn fun i hi => List.mem_cons_of_mem _ (hl i hi)).mono
                    (fun _ fs₃ h₃ => ?_) fun _ _ => id
                  have hlen : path'.length < path.length := length_skipelem hs
                  refine (ih path' name' h₃).mono (fun a fs₄ h₄ => ?_) fun _ _ => id
                  cases a with
                  | none => exact h₄.imp_right fun e => by omega
                  | some z => exact h₄

section Calls

variable {cwd : Nat} (hok : Below ok) (hcwd : cwd < NINODE)

include hok hcwd

theorem namex_refs (h : At r R L fs) (path : List UInt8) (parent : Bool) :
    (namex cwd path parent fs).Holds (fun _ => True)
      (fun a fs' => match a with
        | none => At r R L fs'
        | some x => x.1 < NINODE ∧ At r (x.1 :: R) L fs') fun w _ => ok w := by
  have hwalk : ∀ ip fs', At r (ip :: R) L fs' →
      (namex.loop parent (path.length + 1) ip path [] fs').Holds (fun _ => True)
        (fun a fs' => match a with
          | none => At r R L fs'
          | some x => x.1 < NINODE ∧ At r (x.1 :: R) L fs') fun w _ => ok w := by
    intro ip fs' h'
    refine (namex_loop_refs hok parent _ path [] h' h.locked).mono (fun a fs'' h'' => ?_) fun _ _ => id
    cases a with
    | none => exact h''.resolve_right (by omega)
    | some x => exact h''
  unfold namex
  rw [holds_bind, holds_ite]
  refine ⟨fun _ => ?_, fun _ => ?_⟩
  · exact (iget_refs hok h _ _).mono (fun ip fs₁ h₁ => hwalk ip fs₁ h₁.2) fun _ _ => id
  · refine (idup_refs h hcwd).mono (fun a fs₁ h₁ => ?_) fun _ _ => id
    obtain ⟨rfl, h₁⟩ := h₁
    exact hwalk _ fs₁ h₁

theorem namei_refs (h : At r R L fs) (path : List UInt8) :
    (namei cwd path fs).Holds (fun _ => True)
      (fun a fs' => match a with
        | none => At r R L fs'
        | some ip => ip < NINODE ∧ At r (ip :: R) L fs') fun w _ => ok w := by
  unfold namei
  rw [holds_bind]
  refine (namex_refs hok hcwd h path false).mono (fun a fs₁ h₁ => ?_) fun _ _ => id
  cases a with
  | none => dsimp only; rw [holds_pure]; exact h₁
  | some x => dsimp only; rw [holds_pure]; exact h₁

omit hcwd in
theorem create_fresh_refs (h : At r (dp :: R) (dp :: L) fs) (hn : dp ∉ L) (hl : ∀ i ∈ L, i ∈ R)
    (name : List UInt8) (type major minor : Nat) :
    (create.fresh dp name type major minor fs).Holds (fun _ => True)
      (fun ip fs' => ip ∉ L ∧ At r (ip :: R) (ip :: L) fs') fun w _ => ok w := by
  unfold create.fresh
  rw [holds_bind, holds_fetch, holds_bind]
  refine (ialloc_refs hok h _ _).mono (fun ip fs₁ h₁ => ?_) fun _ _ => id
  rw [holds_bind]
  refine (ilock_refs hok h₁.2 List.mem_cons_self).mono (fun _ fs₂ h₂ => ?_) fun _ _ => id
  obtain ⟨hip, h₂⟩ := h₂
  have hne : ip ≠ dp := fun e => hip (by rw [e]; exact List.mem_cons_self)
  have hipL : ip ∉ L := fun e => hip (List.mem_cons_of_mem _ e)
  have hdp : dp ∈ ip :: dp :: R := by simp
  rw [holds_bind]
  refine (h₂.quiet (quiet_setDin _ _)).mono (fun _ fs₃ h₃ => ?_) fun _ _ => id
  rw [holds_bind]
  refine (h₃.quiet (quiet_iupdate hok _)).mono (fun _ fs₄ h₄ => ?_) fun _ _ => id
  rw [holds_bind, holds_fetch, holds_bind]
  -- the rest of the call, from any state with the two locks
  have hlast : ∀ fs', At r (ip :: dp :: R) (ip :: dp :: L) fs' →
      ((do
        let a ← dirlink dp name (fs₄.icache ip).inum
        if a < 0 then .panic "create: dirlink"
        else do
          iunlockput dp
          pure ip : FsM Nat) fs').Holds (fun _ => True)
        (fun ip fs' => ip ∉ L ∧ At r (ip :: R) (ip :: L) fs') fun w _ => ok w := by
    intro fs' h'
    rw [holds_bind]
    refine (dirlink_refs hok h' hdp _ _).mono (fun a fs₅ h₅ => ?_) fun _ _ => id
    rw [holds_ite]
    refine ⟨fun _ => by rw [holds_panic]; exact hok.2 _ (by decide) (by decide), fun _ => ?_⟩
    rw [holds_bind]
    have h₆ : At r (dp :: ip :: R) (dp :: ip :: L) fs₅ := h₅.perm (.swap _ _ _) fun i => by simp [or_left_comm]
    have hdpL : dp ∉ ip :: L := by simp [hn, Ne.symm hne]
    refine (iunlockput_refs hok h₆ hdpL ?_).mono (fun _ fs₆ h₇ => ?_) fun _ _ => id
    · intro i hi
      rcases List.mem_cons.mp hi with rfl | hi
      · exact List.mem_cons_self
      · exact List.mem_cons_of_mem _ (hl i hi)
    · rw [holds_pure]
      exact ⟨hipL, h₇⟩
  rw [holds_ite]
  refine ⟨fun _ => ?_, fun _ => by rw [holds_pure]; exact hlast fs₄ h₄⟩
  rw [holds_bind]
  refine (h₄.quiet (quiet_setDin _ _)).mono (fun _ fs₅ h₅ => ?_) fun _ _ => id
  rw [holds_bind]
  refine (h₅.quiet (quiet_iupdate hok _)).mono (fun _ fs₆ h₆ => ?_) fun _ _ => id
  rw [holds_bind]
  refine (dirlink_refs hok h₆ List.mem_cons_self _ _).mono (fun a fs₇ h₇ => ?_) fun _ _ => id
  rw [holds_ite]
  refine ⟨fun _ => by rw [holds_panic]; exact hok.2 _ (by decide) (by decide), fun _ => ?_⟩
  rw [holds_bind]
  refine (dirlink_refs hok h₇ List.mem_cons_self _ _).mono (fun a fs₈ h₈ => ?_) fun _ _ => id
  rw [holds_ite]
  exact ⟨fun _ => by rw [holds_panic]; exact hok.2 _ (by decide) (by decide),
    fun _ => by rw [holds_pure]; exact hlast fs₈ h₈⟩

theorem create_refs (h : At r R L fs) (path : List UInt8) (type major minor : Nat) :
    (Sysfile.create cwd path type major minor fs).Holds (fun _ => True)
      (fun a fs' => match a with
        | none => At r R L fs'
        | some ip => ip ∉ L ∧ At r (ip :: R) (ip :: L) fs') fun w _ => ok w := by
  unfold Sysfile.create nameiparent
  rw [holds_bind]
  refine (namex_refs hok hcwd h path true).mono (fun a fs₁ h₁ => ?_) fun _ _ => id
  cases a with
  | none => dsimp only; rw [holds_pure]; exact h₁
  | some x =>
      obtain ⟨dp, name⟩ := x
      dsimp only at h₁ ⊢
      rw [holds_bind]
      refine (ilock_refs hok h₁.2 List.mem_cons_self).mono (fun _ fs₂ h₂ => ?_) fun _ _ => id
      obtain ⟨hn, h₂⟩ := h₂
      rw [holds_bind]
      refine (dirlookup_refs hok h₂ List.mem_cons_self name).mono (fun a fs₃ h₃ => ?_) fun _ _ => id
      cases a with
      | none =>
          dsimp only
          rw [holds_bind]
          refine (create_fresh_refs hok h₃ hn h.locked name type major minor).mono (fun ip fs₄ h₄ => ?_) fun _ _ => id
          rw [holds_pure]
          exact h₄
      | some y =>
          obtain ⟨ip, off⟩ := y
          dsimp only at h₃ ⊢
          rw [holds_bind]
          refine (iunlockput_refs hok h₃.2.swap hn fun i hi => List.mem_cons_of_mem _ (h.locked i hi)).mono
            (fun _ fs₄ h₄ => ?_) fun _ _ => id
          rw [holds_bind]
          refine (ilock_refs hok h₄ List.mem_cons_self).mono (fun _ fs₅ h₅ => ?_) fun _ _ => id
          rw [holds_bind, holds_fetch, holds_ite]
          refine ⟨fun _ => by rw [holds_pure]; exact h₅, fun _ => ?_⟩
          rw [holds_bind]
          refine (iunlockput_refs hok h₅.2 h₅.1 h.locked).mono (fun _ fs₆ h₆ => ?_) fun _ _ => id
          rw [holds_pure]
          exact h₆

theorem makeNode_refs (h : At r R L fs) (path : List UInt8) (type major minor : Nat) :
    (makeNode cwd path type major minor fs).Holds (fun _ => True) (fun _ fs' => At r R L fs') fun w _ => ok w := by
  unfold makeNode
  rw [holds_bind]
  refine (h.quiet (quiet_beginTrans hok)).mono (fun _ fs₁ h₁ => ?_) fun _ _ => id
  rw [holds_bind]
  refine (create_refs hok hcwd h₁ path type major minor).mono (fun a fs₂ h₂ => ?_) fun _ _ => id
  have hend : ∀ fs' (x : Int), At r R L fs' → ((do commitTrans; pure x : FsM Int) fs').Holds (fun _ => True)
      (fun _ fs' => At r R L fs') fun w _ => ok w := fun fs' x h' =>
    h'.quiet (.bind (quiet_commitTrans hok) fun _ => .pure _)
  cases a with
  | none => exact hend fs₂ (-1) h₂
  | some ip =>
      dsimp only
      rw [holds_bind]
      exact (iunlockput_refs hok h₂.2 h₂.1 h.locked).mono (fun _ fs₃ h₃ => hend fs₃ 0 h₃) fun _ _ => id

omit hcwd in
theorem sysLink_bad_refs (h : At r (ip :: R) L fs) (hl : ∀ i ∈ L, i ∈ R) :
    (sysLink.bad ip fs).Holds (fun _ => True) (fun _ fs' => At r R L fs') fun w _ => ok w := by
  unfold sysLink.bad
  rw [holds_bind]
  refine (ilock_refs hok h List.mem_cons_self).mono (fun _ fs₁ h₁ => ?_) fun _ _ => id
  rw [holds_bind]
  refine (h₁.2.quiet (quiet_setDin _ _)).mono (fun _ fs₂ h₂ => ?_) fun _ _ => id
  rw [holds_bind]
  refine (h₂.quiet (quiet_iupdate hok _)).mono (fun _ fs₃ h₃ => ?_) fun _ _ => id
  rw [holds_bind]
  refine (iunlockput_refs hok h₃ h₁.1 hl).mono (fun _ fs₄ h₄ => ?_) fun _ _ => id
  exact h₄.quiet (.bind (quiet_commitTrans hok) fun _ => .pure _)

theorem sysLink_refs (h : At r R L fs) (old new : List UInt8) :
    (sysLink cwd old new fs).Holds (fun _ => True) (fun _ fs' => At r R L fs') fun w _ => ok w := by
  unfold sysLink
  rw [holds_bind]
  refine (namei_refs hok hcwd h old).mono (fun a fs₁ h₁ => ?_) fun _ _ => id
  cases a with
  | none => dsimp only; rw [holds_pure]; exact h₁
  | some ip =>
      dsimp only at h₁ ⊢
      have hl : ∀ i ∈ L, i ∈ ip :: R := fun i hi => List.mem_cons_of_mem _ (h.locked i hi)
      rw [holds_bind]
      refine (h₁.2.quiet (quiet_beginTrans hok)).mono (fun _ fs₂ h₂ => ?_) fun _ _ => id
      rw [holds_bind]
      refine (ilock_refs hok h₂ List.mem_cons_self).mono (fun _ fs₃ h₃ => ?_) fun _ _ => id
      obtain ⟨hn, h₃⟩ := h₃
      rw [holds_bind, holds_fetch, holds_ite]
      refine ⟨fun _ => ?_, fun _ => ?_⟩
      · rw [holds_bind]
        refine (iunlockput_refs hok h₃ hn h.locked).mono (fun _ fs₄ h₄ => ?_) fun _ _ => id
        exact h₄.quiet (.bind (quiet_commitTrans hok) fun _ => .pure _)
      · rw [holds_bind]
        refine (h₃.quiet (quiet_setDin _ _)).mono (fun _ fs₄ h₄ => ?_) fun _ _ => id
        rw [holds_bind]
        refine (h₄.quiet (quiet_iupdate hok _)).mono (fun _ fs₅ h₅ => ?_) fun _ _ => id
        rw [holds_bind]
        refine (iunlock_refs hok h₅ hn).mono (fun _ fs₆ h₆ => ?_) fun _ _ => id
        unfold nameiparent
        rw [holds_bind]
        refine (namex_refs hok hcwd h₆ new true).mono (fun a fs₇ h₇ => ?_) fun _ _ => id
        cases a with
        | none => exact sysLink_bad_refs hok h₇ h.locked
        | some x =>
            obtain ⟨dp, name⟩ := x
            dsimp only at h₇ ⊢
            rw [holds_bind]
            refine (ilock_refs hok h₇.2 List.mem_cons_self).mono (fun _ fs₈ h₈ => ?_) fun _ _ => id
            obtain ⟨hdp, h₈⟩ := h₈
            rw [holds_bind, holds_fetch, holds_bind]
            have hlink : ((if (fs₈.icache dp).dev ≠ (fs₈.icache ip).dev then pure (-1)
                else dirlink dp name (fs₈.icache ip).inum : FsM Int) fs₈).Holds (fun _ => True)
                (fun _ fs' => At r (dp :: ip :: R) (dp :: L) fs') fun w _ => ok w := by
              rw [holds_ite]
              exact ⟨fun _ => by rw [holds_pure]; exact h₈, fun _ => dirlink_refs hok h₈ List.mem_cons_self _ _⟩
            refine hlink.mono (fun a fs₉ h₉ => ?_) fun _ _ => id
            rw [holds_ite]
            refine ⟨fun _ => ?_, fun _ => ?_⟩
            · rw [holds_bind]
              exact (iunlockput_refs hok h₉ hdp hl).mono (fun _ fs' h' => sysLink_bad_refs hok h' h.locked) fun _ _ =>
                id
            · rw [holds_bind]
              refine (iunlockput_refs hok h₉ hdp hl).mono (fun _ fs' h' => ?_) fun _ _ => id
              rw [holds_bind]
              refine (iput_refs hok h' h.locked).mono (fun _ fs'' h'' => ?_) fun _ _ => id
              exact h''.quiet (.bind (quiet_commitTrans hok) fun _ => .pure _)

omit hcwd in
theorem isdirempty_refs (h : At r R L fs) (hdp : dp ∈ R) :
    (isdirempty dp fs).Holds (fun _ => True) (fun _ fs' => At r R L fs') fun w _ => ok w := by
  have hloop : ∀ fuel off fs, At r R L fs → (isdirempty.loop dp fuel off fs).Holds (fun _ => True)
      (fun _ fs' => At r R L fs') fun w _ => ok w := by
    intro fuel
    induction fuel with
    | zero =>
        intro off fs h
        unfold isdirempty.loop
        rw [holds_pure]
        exact h
    | succ fuel ih =>
        intro off fs h
        unfold isdirempty.loop
        rw [holds_bind, holds_fetch, holds_ite]
        refine ⟨fun _ => ?_, fun _ => by rw [holds_pure]; exact h⟩
        rw [holds_bind]
        refine (readi_refs hok h hdp off DESIZE).mono (fun a fs₁ h₁ => ?_) fun _ _ => id
        rw [holds_ite]
        refine ⟨fun _ => by rw [holds_panic]; exact hok.2 _ (by decide) (by decide), fun _ => ?_⟩
        rw [holds_ite]
        exact ⟨fun _ => by rw [holds_pure]; exact h₁, fun _ => ih _ _ h₁⟩
  unfold isdirempty
  rw [holds_bind, holds_fetch]
  exact hloop _ _ _ h

omit hcwd in
theorem sysUnlink_bad_refs (h : At r (dp :: R) (dp :: L) fs) (hn : dp ∉ L) (hl : ∀ i ∈ L, i ∈ R) :
    (sysUnlink.bad dp fs).Holds (fun _ => True) (fun _ fs' => At r R L fs') fun w _ => ok w := by
  unfold sysUnlink.bad
  rw [holds_bind]
  refine (iunlockput_refs hok h hn hl).mono (fun _ fs₁ h₁ => ?_) fun _ _ => id
  exact h₁.quiet (.bind (quiet_commitTrans hok) fun _ => .pure _)

omit hcwd in
theorem sysUnlink_remove_refs (h : At r (ip :: dp :: R) (ip :: dp :: L) fs) (hip : ip ∉ dp :: L) (hn : dp ∉ L)
    (hl : ∀ i ∈ L, i ∈ R) (off : Nat) :
    (sysUnlink.remove dp ip off fs).Holds (fun _ => True) (fun _ fs' => At r R L fs') fun w _ => ok w := by
  have hdp : dp ∈ ip :: dp :: R := by simp
  have hipL : ip ∉ L := fun e => hip (List.mem_cons_of_mem _ e)
  have hdpL : dp ∉ ip :: L := by
    rw [List.mem_cons]
    rintro (e | e)
    · exact hip (by rw [e]; exact List.mem_cons_self)
    · exact hn e
  unfold sysUnlink.remove
  rw [holds_bind]
  refine (writei_refs hok h hdp _ _ _).mono (fun a fs₁ h₁ => ?_) fun _ _ => id
  rw [holds_ite]
  refine ⟨fun _ => by rw [holds_panic]; exact hok.2 _ (by decide) (by decide), fun _ => ?_⟩
  rw [holds_bind, holds_fetch, holds_bind]
  refine (h₁.quiet (.ite (.bind (quiet_setDin _ _) fun _ => quiet_iupdate hok _) (.pure _))).mono
    (fun _ fs₂ h₂ => ?_) fun _ _ => id
  rw [holds_bind]
  have h₃ : At r (dp :: ip :: R) (dp :: ip :: L) fs₂ := h₂.perm (.swap _ _ _) fun i => by simp [or_left_comm]
  refine (iunlockput_refs hok h₃ hdpL ?_).mono (fun _ fs₄ h₄ => ?_) fun _ _ => id
  · intro i hi
    rcases List.mem_cons.mp hi with rfl | hi
    · exact List.mem_cons_self
    · exact List.mem_cons_of_mem _ (hl i hi)
  · rw [holds_bind]
    refine (h₄.quiet (quiet_setDin _ _)).mono (fun _ fs₅ h₅ => ?_) fun _ _ => id
    rw [holds_bind]
    refine (h₅.quiet (quiet_iupdate hok _)).mono (fun _ fs₆ h₆ => ?_) fun _ _ => id
    rw [holds_bind]
    refine (iunlockput_refs hok h₆ hipL hl).mono (fun _ fs₇ h₇ => ?_) fun _ _ => id
    exact h₇.quiet (.bind (quiet_commitTrans hok) fun _ => .pure _)

theorem sysUnlink_refs (h : At r R L fs) (path : List UInt8) :
    (sysUnlink cwd path fs).Holds (fun _ => True) (fun _ fs' => At r R L fs') fun w _ => ok w := by
  unfold sysUnlink nameiparent
  rw [holds_bind]
  refine (namex_refs hok hcwd h path true).mono (fun a fs₁ h₁ => ?_) fun _ _ => id
  cases a with
  | none => dsimp only; rw [holds_pure]; exact h₁
  | some x =>
      obtain ⟨dp, name⟩ := x
      dsimp only at h₁ ⊢
      rw [holds_bind]
      refine (h₁.2.quiet (quiet_beginTrans hok)).mono (fun _ fs₂ h₂ => ?_) fun _ _ => id
      rw [holds_bind]
      refine (ilock_refs hok h₂ List.mem_cons_self).mono (fun _ fs₃ h₃ => ?_) fun _ _ => id
      obtain ⟨hn, h₃⟩ := h₃
      rw [holds_ite]
      refine ⟨fun _ => sysUnlink_bad_refs hok h₃ hn h.locked, fun _ => ?_⟩
      rw [holds_bind]
      refine (dirlookup_refs hok h₃ List.mem_cons_self name).mono (fun a fs₄ h₄ => ?_) fun _ _ => id
      cases a with
      | none => exact sysUnlink_bad_refs hok h₄ hn h.locked
      | some y =>
          obtain ⟨ip, off⟩ := y
          dsimp only at h₄ ⊢
          rw [holds_bind]
          refine (ilock_refs hok h₄.2 List.mem_cons_self).mono (fun _ fs₅ h₅ => ?_) fun _ _ => id
          obtain ⟨hip, h₅⟩ := h₅
          rw [holds_bind, holds_fetch, holds_ite]
          refine ⟨fun _ => by rw [holds_panic]; exact hok.2 _ (by decide) (by decide), fun _ => ?_⟩
          rw [holds_bind]
          have hempty : ((if (fs₅.icache ip).din.type = T_DIR then isdirempty ip else pure true : FsM Bool) fs₅).Holds
              (fun _ => True) (fun _ fs' => At r (ip :: dp :: R) (ip :: dp :: L) fs') fun w _ => ok w := by
            rw [holds_ite]
            exact ⟨fun _ => isdirempty_refs hok h₅ List.mem_cons_self, fun _ => by rw [holds_pure]; exact h₅⟩
          refine hempty.mono (fun a fs₆ h₆ => ?_) fun _ _ => id
          rw [holds_ite]
          refine ⟨fun _ => ?_, fun _ => sysUnlink_remove_refs hok h₆ hip hn h.locked off⟩
          rw [holds_bind]
          refine (iunlockput_refs hok h₆ hip ?_).mono (fun _ fs₇ h₇ => sysUnlink_bad_refs hok h₇ hn h.locked)
            fun _ _ => id
          intro i hi
          rcases List.mem_cons.mp hi with rfl | hi
          · exact List.mem_cons_self
          · exact List.mem_cons_of_mem _ (h.locked i hi)

end Calls

end ArmXv6.InodeRefs
