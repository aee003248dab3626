import ArmXv6.Sysfile

namespace ArmXv6.Quiet

open Lib.Exec Lib.Bytes Param Blocks Fs Content

/-- What the reference counts of the inode cache and its locks look like. -/
def pins (fs : Fs) (i : Nat) : Nat × Bool := ((fs.icache i).ref, (fs.icache i).busy)

/-- Code below the file table may sleep and may stop with any panic but those of the file table. -/
def Below (ok : Stop → Prop) : Prop :=
  ok .sleep ∧ ∀ msg, msg ≠ "filedup" → msg ≠ "fileclose" → ok (.panic msg)

variable {ok : Stop → Prop} (hok : Below ok)

theorem pins_setInode (fs : Fs) (ip : Nat) (x : Inode) (hr : x.ref = (fs.icache ip).ref)
    (hb : x.busy = (fs.icache ip).busy) :
    pins { fs with icache := Function.update fs.icache ip x } = pins fs := by
  funext i
  unfold pins
  by_cases e : i = ip
  · rw [e]
    simp [hr, hb]
  · simp [e]

include hok

theorem quiet_bread (s : Nat) : Stable ok pins (bread s) := by
  refine .bind .fetch fun fs => .ite (.sleep hok.1) (.ite (.panic (hok.2 _ (by decide) (by decide)))
    (.ite (.panic (hok.2 _ (by decide) (by decide))) ?_))
  exact .bind (.update fun _ => rfl) fun _ => .pure _

omit hok in
theorem quiet_brelse (s : Nat) : Stable ok pins (brelse s) := .update fun _ => rfl

omit hok in
theorem quiet_bwrite (s : Nat) (d : Block) : Stable ok pins (bwrite s d) :=
  .bind (.update fun _ => rfl) fun _ => .update fun _ => rfl

theorem quiet_logWrite (s : Nat) (d : Block) : Stable ok pins (logWrite s d) := by
  refine .bind (.update fun _ => rfl) fun _ => .bind .fetch fun fs => ?_
  refine .ite (.panic (hok.2 _ (by decide) (by decide))) (.ite (.panic (hok.2 _ (by decide) (by decide))) ?_)
  refine .bind (quiet_bread hok _) fun _ => .bind (quiet_bwrite _ _) fun _ => .bind (quiet_brelse _) fun _ => ?_
  exact .bind (.update fun _ => rfl) fun _ => .update fun _ => rfl

theorem quiet_writeHead : Stable ok pins writeHead :=
  .bind .fetch fun _ => .bind (quiet_bread hok _) fun _ => .bind (quiet_bwrite _ _) fun _ => quiet_brelse _

theorem quiet_installTrans_loop (l : List Nat) (tail : Nat) : Stable ok pins (installTrans.loop tail l) := by
  induction l generalizing tail with
  | nil => exact .pure _
  | cons x l ih =>
      refine .bind .fetch fun _ => .bind (quiet_bread hok _) fun _ => .bind (quiet_bread hok _) fun _ => ?_
      refine .bind (quiet_bwrite _ _) fun _ => .bind (quiet_brelse _) fun _ => .bind (quiet_brelse _) fun _ => ?_
      exact ih _

theorem quiet_beginTrans : Stable ok pins beginTrans :=
  .bind .fetch fun _ => .ite (.sleep hok.1) (.update fun _ => rfl)

theorem quiet_commitTrans : Stable ok pins commitTrans := by
  refine .bind .fetch fun fs => .bind (.ite ?_ (.pure _)) fun _ => .update fun _ => rfl
  refine .bind (quiet_writeHead hok) fun _ => .bind (.bind .fetch fun _ => quiet_installTrans_loop hok _ _) fun _ => ?_
  exact .bind (.update fun _ => rfl) fun _ => quiet_writeHead hok

theorem quiet_readsb : Stable ok pins readsb :=
  .bind (quiet_bread hok _) fun _ => .bind (quiet_brelse _) fun _ => .pure _

theorem quiet_bzero (b : Nat) : Stable ok pins (bzero b) :=
  .bind (quiet_bread hok _) fun _ => .bind (quiet_logWrite hok _ _) fun _ => quiet_brelse _

theorem quiet_balloc_loop (sb : Superblock) (fuel b : Nat) : Stable ok pins (balloc.loop sb fuel b) := by
  induction fuel generalizing b with
  | zero => exact .panic (hok.2 _ (by decide) (by decide))
  | succ fuel ih =>
      refine .bind .fetch fun fs => .ite ?_ (.panic (hok.2 _ (by decide) (by decide)))
      refine .bind (quiet_bread hok _) fun bp => ?_
      cases firstClear bp (min BPB (sb.size - b)) with
      | some bi =>
          refine .bind (.emit _) fun _ => .bind (quiet_logWrite hok _ _) fun _ => ?_
          exact .bind (quiet_brelse _) fun _ => .bind (quiet_bzero hok _) fun _ => .pure _
      | none => exact .bind (quiet_brelse _) fun _ => ih _

theorem quiet_balloc : Stable ok pins balloc := .bind (quiet_readsb hok) fun sb => quiet_balloc_loop hok sb _ _

theorem quiet_bfree (b : Nat) : Stable ok pins (bfree b) := by
  refine .bind (quiet_readsb hok) fun sb => .bind (quiet_bread hok _) fun bp => ?_
  exact .ite (.panic (hok.2 _ (by decide) (by decide)))
    (.bind (quiet_logWrite hok _ _) fun _ => quiet_brelse _)

omit hok in
theorem quiet_setDin (ip : Nat) (g : Dinode → Dinode) : Stable ok pins (setDin ip g) :=
  .update fun fs => pins_setInode fs ip _ rfl rfl

theorem quiet_iupdate (ip : Nat) : Stable ok pins (iupdate ip) :=
  .bind .fetch fun _ => .bind (quiet_bread hok _) fun _ => .bind (quiet_logWrite hok _ _) fun _ => quiet_brelse _

theorem quiet_bmap (ip bn : Nat) : Stable ok pins (bmap ip bn) := by
  have halloc : ∀ j, Stable ok pins (do
      let addr ← balloc
      setDin ip fun d => { d with addrs := Function.update d.addrs j addr }
      pure addr : FsM Nat) := fun j =>
    .bind (quiet_balloc hok) fun addr => .bind (quiet_setDin _ _) fun _ => .pure _
  refine .bind .fetch fun fs => .ite (.ite (halloc bn) (.pure _)) (.ite ?_ (.panic (hok.2 _ (by decide) (by decide))))
  refine .bind (.ite (halloc NDIRECT) (.pure _)) fun ind => .bind (quiet_bread hok _) fun bp => .ite ?_ ?_
  · exact .bind (quiet_balloc hok) fun addr => .bind (quiet_logWrite hok _ _) fun _ =>
      .bind (quiet_brelse _) fun _ => .pure _
  · exact .bind (quiet_brelse _) fun _ => .pure _

theorem quiet_itrunc_direct (ip : Nat) (l : List Nat) : Stable ok pins (itrunc.direct ip l) := by
  induction l with
  | nil => exact .pure _
  | cons i l ih =>
      refine .bind .fetch fun fs => .bind (.ite ?_ (.pure _)) fun _ => ih
      exact .bind (quiet_bfree hok _) fun _ => quiet_setDin _ _

theorem quiet_itrunc_indirect (bp : Block) (l : List Nat) : Stable ok pins (itrunc.indirect bp l) := by
  induction l with
  | nil => exact .pure _
  | cons j l ih => exact .bind (.ite (quiet_bfree hok _) (.pure _)) fun _ => ih

theorem quiet_itrunc (ip : Nat) : Stable ok pins (itrunc ip) := by
  refine .bind (quiet_itrunc_direct hok ip _) fun _ => .bind .fetch fun fs => .bind (.ite ?_ (.pure _)) fun _ => ?_
  · refine .bind (quiet_bread hok _) fun bp => .bind (quiet_itrunc_indirect hok bp _) fun _ => ?_
    exact .bind (quiet_brelse _) fun _ => .bind (quiet_bfree hok _) fun _ => quiet_setDin _ _
  · exact .bind (quiet_setDin _ _) fun _ => quiet_iupdate hok ip

theorem quiet_console_loop (n : Nat) (acc : List UInt8) : Stable ok pins (consoleread.loop n acc) := by
  induction n generalizing acc with
  | zero => exact .pure _
  | succ n ih =>
      refine .bind .fetch fun fs => ?_
      cases fs.input with
      | nil => exact .sleep hok.1
      | cons c rest =>
          cases c with
          | none => exact .bind (.update fun _ => rfl) fun _ => .pure _
          | some c =>
              refine .ite (.bind (.ite (.update fun _ => rfl) (.pure _)) fun _ => .pure _) ?_
              exact .bind (.update fun _ => rfl) fun _ => .ite (.pure _) (ih _)

theorem quiet_readi_loop (ip n fuel tot off : Nat) (acc : List UInt8) :
    Stable ok pins (readi.loop ip n fuel tot off acc) := by
  induction fuel generalizing tot off acc with
  | zero => exact .pure _
  | succ fuel ih =>
      refine .ite (.bind (quiet_bmap hok _ _) fun b => .bind (quiet_bread hok _) fun bp => ?_) (.pure _)
      exact .bind (quiet_brelse _) fun _ => ih _ _ _

theorem quiet_writei_loop (ip : Nat) (src : Nat → UInt8) (n fuel tot off : Nat) :
    Stable ok pins (writei.loop ip src n fuel tot off) := by
  induction fuel generalizing tot off with
  | zero => exact .pure _
  | succ fuel ih =>
      refine .ite (.bind (quiet_bmap hok _ _) fun b => .bind (quiet_bread hok _) fun bp => ?_) (.pure _)
      exact .bind (quiet_logWrite hok _ _) fun _ => .bind (quiet_brelse _) fun _ => ih _ _

end ArmXv6.Quiet
