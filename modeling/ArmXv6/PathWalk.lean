import ArmXv6.Directory

namespace ArmXv6.PathWalk

open Lib.Exec Lib.Bytes Param Blocks Fs Content DiskImage BlockSpecs BlockAlloc Ownership BlockMap FileData InodeSpecs
  Namespace Directory

/-- Every entry of every directory names a live inode. -/
def NoDangling (v : Volume) (A : Image) : Prop :=
  ∀ i, Live v A i → (A.ino i).type = T_DIR → ∀ de ∈ entries A i, de.inum ≠ 0 → Live v A de.inum

variable {v : Volume} {A : Image} {fs fs₀ : Fs} {ip cwd : Nat} {ok : Stop → Prop} {G : Event → Prop}

/-- The outcome of a walk that started in fs₀ and was to lead to e: a new reference to an
inode, which for the parent of a path is a directory. -/
def Walked (v : Volume) (A : Image) (ok : Stop → Prop) (fs₀ : Fs) (parent : Bool) (e : Option (Nat × List UInt8)) :
    Option (Nat × List UInt8) → Fs → Prop
  | none, fs => Sound v A fs ∧ Refs fs₀ fs [] ∧ fs.log = fs₀.log ∧ e = none
  | some (ip, name), fs => Sound v A fs ∧ Refs fs₀ fs [ip] ∧ fs.log = fs₀.log ∧ e = some ((fs.icache ip).inum, name) ∧
      ip < NINODE ∧ (ok noType ∨ Live v A (fs.icache ip).inum) ∧
      (parent = true → Cached v A fs ip (fs.icache ip).inum ∧ (A.ino (fs.icache ip).inum).type = T_DIR)

theorem namex_loop_spec (ht : Tidy v A) (ha : Anchored v A fs₀) (hok : Lenient ok) (hd : ok noType ∨ NoDangling v A)
    (parent : Bool) (fuel : Nat) (path name : List UInt8) (h : Sound v A fs) (hr : Refs fs₀ fs [ip])
    (hlog : fs.log = fs₀.log) (hip : ip < NINODE) (hlive : ok noType ∨ Live v A (fs.icache ip).inum)
    (hfuel : path.length < fuel) :
    (namex.loop parent fuel ip path name fs).Holds G
      (Walked v A ok fs₀ parent (resolve.loop (view v A) parent fuel (fs.icache ip).inum path name))
        (fun w _ => ok w) := by
  induction fuel generalizing fs ip path name with
  | zero => omega
  | succ fuel ih =>
      have hin := (h.rep.cache.known ip hip (hr.pos hip)).2
      unfold namex.loop resolve.loop
      cases hskip : skipelem path with
      | none =>
          cases parent with
          | true =>
              simp only [if_true, holds_bind]
              refine (iput_walk h ha hr hip).mono ?_ fun _ _ h => h
              rintro _ fs' ⟨hs, hr', rfl⟩
              exact (holds_pure _ _).2 ⟨hs, hr', hlog, rfl⟩
          | false => exact (holds_pure _ _).2 ⟨h, hr, hlog, rfl, hip, hlive, fun hf => absurd hf (by decide)⟩
      | some r =>
          obtain ⟨path', name'⟩ := r
          have hlen := length_skipelem hskip
          simp only [holds_bind, holds_fetch]
          refine (ilock_spec h hok hip hlive).mono ?_ fun _ _ h => h
          rintro _ fs₁ ⟨-, hc, hs, hr₁, x, rfl, -⟩
          simp only [view_type hin]
          have hr₁ := hr.trans hr₁
          have hdin := hc.din hs.rep
          simp only [holds_ite, holds_bind, hdin]
          refine ⟨fun hfile => ?_, fun hdir => ⟨fun hend => ?_, fun hmore => ?_⟩⟩
          · refine (iunlockput_walk hs hok ha hr₁ hip).mono ?_ fun _ _ h => h
            rintro _ fs₂ ⟨hs₂, hr₂, rfl⟩
            rw [if_pos hfile]
            exact (holds_pure _ _).2 ⟨hs₂, hr₂, hlog, rfl⟩
          · refine (iunlock_spec hs hok hip).mono ?_ fun _ _ h => h
            rintro _ fs₂ ⟨-, hs₂, hr₂, rfl⟩
            have hc₂ := cached_refs hc hr₂
            have hdir := not_not.1 hdir
            rw [if_neg (not_not.2 hdir), if_pos hend]
            refine (holds_pure _ _).2 ⟨hs₂, hr₁.trans hr₂, hlog, by rw [hc₂.inum], hip, ?_, fun _ => ?_⟩
            · rw [hc₂.inum]
              exact .inr hc.live
            · rw [hc₂.inum]
              exact ⟨hc₂, hdir⟩
          · rw [if_neg hdir, if_neg hmore]
            have hdir := not_not.1 hdir
            rw [view_entries hin hdir]
            refine (dirlookup_spec hs ht hok hc hdir).mono ?_ fun _ _ h => h
            rintro (_ | ⟨next, off⟩) fs₂ hfound
            · obtain ⟨rfl, hlook⟩ := hfound
              rw [holds_bind]
              refine (iunlockput_walk hs hok ha hr₁ hip).mono ?_ fun _ _ h => h
              rintro _ fs₂ ⟨hs₂, hr₂, rfl⟩
              exact (holds_pure _ _).2 ⟨hs₂, hr₂, hlog, by rw [hlook]⟩
            · obtain ⟨k, de, -, hget, hm, hlook, hnext, hinum, hs₂, hr₂, y, hfs₂, -⟩ := hfound
              rw [holds_bind, hlook]
              have hr₂ : Refs fs₀ fs₂ [ip, next] := (hr₁.trans hr₂).perm (List.Perm.swap _ _ _)
              refine (iunlockput_walk hs₂ hok ha hr₂ hip).mono ?_ fun _ _ h => h
              rintro _ fs₃ ⟨hs₃, hr₃, hfs₃⟩
              have hinum₃ : (fs₃.icache next).inum = de.inum := by
                rw [← hinum, hfs₃]
                by_cases hn : next = ip
                · rw [hn, putInode_self]
                · rw [putInode_of_ne hn]
              have hlog₃ : fs₃.log = fs₀.log := by
                rw [hfs₃, hfs₂]
                exact hlog
              have hlive₃ : ok noType ∨ Live v A (fs₃.icache next).inum := by
                rw [hinum₃]
                exact hd.imp id fun hd => hd _ hc.live hdir de (List.mem_of_getElem? hget) hm.1
              simp only [← hinum₃]
              exact ih path' name' hs₃ hr₃ hlog₃ hnext hlive₃ (by omega)

/-- Path resolution changes no image and keeps every count besides that of its result. -/
theorem namex_spec (ht : Tidy v A) (ha : Anchored v A fs) (hok : Lenient ok) (hd : ok noType ∨ NoDangling v A)
    (parent : Bool) (path : List UInt8) (h : Sound v A fs) (hcwd : cwd < NINODE) (href : 0 < (fs.icache cwd).ref)
    (hlive : ok noType ∨ Live v A (fs.icache cwd).inum ∧ Live v A ROOTINO) :
    (namex cwd path parent fs).Holds G
      (Walked v A ok fs parent (resolve (view v A) (fs.icache cwd).inum path parent)) (fun w _ => ok w) := by
  unfold namex resolve
  simp only [holds_bind, holds_ite]
  refine ⟨fun hroot => ?_, fun hrel => ?_⟩
  · refine (iget_spec h hok v.root).mono ?_ fun _ _ h => h
    rintro ip fs₁ ⟨hip, hinum, hs, hr, x, rfl, -⟩
    have hlive' := hlive.imp id And.right
    rw [← hinum] at hlive'
    rw [if_pos hroot, ← hinum]
    exact namex_loop_spec ht ha hok hd parent _ path [] hs hr rfl hip hlive' (Nat.lt_succ_self _)
  · refine (idup_spec h hcwd href).mono ?_ fun _ _ h => h
    rintro ip fs₁ ⟨rfl, hs, hr, hfs₁⟩
    have hinum : (fs₁.icache ip).inum = (fs.icache ip).inum := by rw [hfs₁, putInode_self]
    have hlive' := hlive.imp id And.left
    rw [← hinum] at hlive'
    rw [if_neg hrel, ← hinum]
    exact namex_loop_spec ht ha hok hd parent _ path [] hs hr (by rw [hfs₁]; rfl) hcwd hlive' (Nat.lt_succ_self _)

theorem namei_spec (ht : Tidy v A) (ha : Anchored v A fs) (hok : Lenient ok) (hd : ok noType ∨ NoDangling v A)
    (path : List UInt8) (h : Sound v A fs) (hcwd : cwd < NINODE) (href : 0 < (fs.icache cwd).ref)
    (hlive : ok noType ∨ Live v A (fs.icache cwd).inum ∧ Live v A ROOTINO) :
    (namei cwd path fs).Holds G
      (fun r fs' => ∃ name, Walked v A ok fs false (resolve (view v A) (fs.icache cwd).inum path false)
        (r.map fun ip => (ip, name)) fs') (fun w _ => ok w) := by
  unfold namei
  rw [holds_bind]
  refine (namex_spec ht ha hok hd false path h hcwd href hlive).mono ?_ fun _ _ h => h
  rintro (_ | ⟨ip, name⟩) fs' hw
  · exact (holds_pure _ _).2 ⟨[], hw⟩
  · exact (holds_pure _ _).2 ⟨name, hw⟩

end ArmXv6.PathWalk
