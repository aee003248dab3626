import ArmXv6.Mounted

namespace ArmXv6.FsSafety

open Lib.Exec Lib.Bytes Lib.Count Param Blocks Fs Content Sysfile Vm Kernel Proc Exec Descriptors Syscall
  DiskImage BlockSpecs
  BlockAlloc Ownership BlockMap FileData InodeSpecs Namespace Directory SysfileSpecs FileRefs InodeRefs ProcRefs
    CallRefs OpenFiles
  OpenCalls DirectoryMap FsRuns OnDisk Mounted

variable {v : Volume} {k : Kstate} {i : Nat}

/-- On every disk that the calls leave, a block is marked in use when it is one of the metadata
blocks or named by a slot of an
allocated inode, and by one only. Those blocks lie between the metadata and the log. -/
theorem blocks_owned_once (h : Started v k) :
    (∀ b < v.sb.size, (k.fs.blk (BBLOCK b v.sb.ninodes)).bit (b % BPB) = true ↔
      b < v.dataStart ∨ ∃ i n, Live v (imageOn v k.fs.blk) i ∧ slot (imageOn v k.fs.blk) i n = b) ∧
    (∀ i n, Live v (imageOn v k.fs.blk) i → slot (imageOn v k.fs.blk) i n ≠ 0 →
      v.dataStart ≤ slot (imageOn v k.fs.blk) i n ∧ slot (imageOn v k.fs.blk) i n < v.logStart ∧
      ∀ j m, Live v (imageOn v k.fs.blk) j → slot (imageOn v k.fs.blk) j m = slot (imageOn v k.fs.blk) i n → j = i ∧
        m = n) := by
  have ho := (Started.fine h).sane.sound.owns
  have hnot : ∀ i, i ∉ (∅ : Set Nat) := Set.notMem_empty
  refine ⟨fun b hb => (ho.used b hb).trans ?_, fun i n hl hn => ?_⟩
  · simp
  · obtain ⟨hlo, hhi⟩ := ho.range i n hl (hnot i) hn
    refine ⟨hlo, hhi, fun j m hj he => ?_⟩
    obtain ⟨rfl, rfl⟩ := ho.inj i j n m hl (hnot i) hj (hnot j) hn he.symm
    exact ⟨rfl, rfl⟩

theorem blocks_owned_once_unlinked : ∃ i n, Live smallVolume (imageOn smallVolume afterUnlink.fs.blk) i ∧
    slot (imageOn smallVolume afterUnlink.fs.blk) i n = 6 := by
  have h := (blocks_owned_once started_afterUnlink).1 6 (by decide)
  have hbit : (afterUnlink.fs.blk (BBLOCK 6 smallVolume.sb.ninodes)).bit (6 % BPB) = true := by decide +kernel
  exact (h.mp hbit).resolve_left (by decide)

/-- The entries in use name different inodes, and a valid one is the inode on the disk. An inode
that a file keeps open is valid
and stays allocated. -/
theorem inode_cache_coherent (h : Started v k) :
    (∀ ip < NINODE, 0 < (k.fs.icache ip).ref → (k.fs.icache ip).dev = ROOTDEV ∧ (k.fs.icache ip).inum < v.sb.ninodes ∧
      (∀ jp < NINODE, 0 < (k.fs.icache jp).ref → (k.fs.icache jp).inum = (k.fs.icache ip).inum → jp = ip) ∧
      ((k.fs.icache ip).valid = true → (k.fs.icache ip).din.type ≠ 0 ∧
        (k.fs.icache ip).din = dinodeAt (k.fs.blk (IBLOCK (k.fs.icache ip).inum)) ((k.fs.icache ip).inum % IPB))) ∧
    ∀ f < NFILE, (k.ftable f).type = .inode →
      (k.ftable f).ip < NINODE ∧ 0 < (k.fs.icache (k.ftable f).ip).ref ∧
        (k.fs.icache (k.ftable f).ip).valid = true := by
  have hf := Started.fine h
  have hc := hf.sane.sound.rep.cache
  refine ⟨fun ip hip hr => ?_, fun f hlt ht => ⟨(hf.index f hlt ht).1, hf.ref hlt ht, hf.valid f hlt ht⟩⟩
  obtain ⟨hdev, hinum⟩ := hc.known ip hip hr
  refine ⟨hdev, hinum, fun jp hjp hr' he => hc.inj jp hjp ip hip hr' hr he, fun hv => ?_⟩
  have hdin := hc.din ip hip hr hv
  have hlive := hf.sane.sound.live ip hip hr hv
  exact ⟨hdin ▸ hlive.2, hdin⟩

theorem inode_cache_coherent_unlinked : 0 < (afterUnlink.fs.icache (afterUnlink.ftable 0).ip).ref :=
  ((inode_cache_coherent started_afterUnlink).2 0 (by decide) (by decide +kernel)).2.1

/-- An allocated inode without links is open in a file or the current directory of a process. -/
theorem unlinked_inode_in_use (h : Started v k) (hl : Live v (imageOn v k.fs.blk) i)
    (hn : ((imageOn v k.fs.blk).ino i).nlink = 0) :
    ∃ ip < NINODE, (k.fs.icache ip).inum = i ∧ 0 < fileUsers k ip + procUsers k ip := by
  obtain ⟨ip, hip, hr, -, hi⟩ := (Started.fine h).sane.anchored i hl hn
  refine ⟨ip, hip, hi, ?_⟩
  have href := h.reachable.between.at.ref ip hip
  simp only [users, List.count_nil, Nat.add_zero] at href
  omega

theorem unlinked_inode_in_use_open : ∃ ip < NINODE, (afterUnlink.fs.icache ip).inum = 2 ∧
    0 < fileUsers afterUnlink ip + procUsers afterUnlink ip := by
  have hnode : ((imageOn smallVolume afterUnlink.fs.blk).ino 2).type = T_FILE ∧
      ((imageOn smallVolume afterUnlink.fs.blk).ino 2).nlink = 0 := by decide +kernel
  exact unlinked_inode_in_use started_afterUnlink ⟨by decide, by rw [hnode.1]; decide⟩ hnode.2

/-- Every allocated inode has the blocks of its size and no others, so that bmap finds a block for
each byte of a file; and read and
fstat write nothing. -/
theorem reads_write_nothing (h : Started v k) :
    (∀ i, Live v (imageOn v k.fs.blk) i → Full (imageOn v k.fs.blk) i) ∧
    ∀ p fd addr n r k' u, References.Live k p →
      run (.read fd addr n) { k with cur := p } = .ok r k' u ∨ run (.fstat fd addr) { k with cur := p } = .ok r k' u →
        Unwritten k.fs k'.fs := by
  have hf := Started.fine h
  refine ⟨hf.sane.sound.full, fun p fd addr n r k' u hp he => ?_⟩
  have hfine : Fine v (imageOn v k.fs.blk) false { k with cur := p } := hf.congr rfl rfl
  obtain ⟨hread, hstat⟩ := look_reading (G := fun _ => True) hfine (References.Between.switch h.reachable.between p)
    (Runs.Live.running hp) fd addr n
  rcases he with he | he
  · exact (hread.ok he).2
  · exact (hstat.ok he).2

theorem reads_write_nothing_unlinked :
    Unwritten afterUnlink.fs (run (.read 0 0 2) { afterUnlink with cur := 0 }).state.fs := by
  obtain ⟨r, he⟩ := Run.eq_ok (r := run (.read 0 0 2) { afterUnlink with cur := 0 }) (by decide +kernel)
  exact (reads_write_nothing started_afterUnlink).2 0 0 0 2 r _ _ (live_first (by decide +kernel)) (.inl he)

/-- Directories are written by the kernel only: none is open for writing, and each consists of
entries that name inodes of the
disk. Between calls no transaction is left open. -/
theorem directories_unharmed (h : Started v k) :
    (∀ f < NFILE, (k.ftable f).type = .inode → (k.ftable f).writable = true →
      (k.fs.icache (k.ftable f).ip).din.type ≠ T_DIR) ∧
    (∀ i, Live v (imageOn v k.fs.blk) i → ((imageOn v k.fs.blk).ino i).type = T_DIR →
      ((imageOn v k.fs.blk).ino i).size % DESIZE = 0 ∧ ∀ de ∈ entries (imageOn v k.fs.blk) i, de.inum < v.sb.ninodes) ∧
    k.fs.log.busy = false := by
  have hf := Started.fine h
  refine ⟨fun f hlt ht hw => ?_, hf.sane.tidy, hf.busy⟩
  rw [(hf.cached hlt ht).din hf.sane.sound.rep]
  exact hf.writable f hlt ht hw

theorem directories_unharmed_unlinked : (afterUnlink.ftable 0).writable = true ∧
    (afterUnlink.fs.icache (afterUnlink.ftable 0).ip).din.type ≠ T_DIR := by
  have hfile : (afterUnlink.ftable 0).type = .inode ∧ (afterUnlink.ftable 0).writable = true := by decide +kernel
  exact ⟨hfile.2, (directories_unharmed started_afterUnlink).1 0 (by decide) hfile.1 hfile.2⟩

end ArmXv6.FsSafety
