import ArmXv6.Syscall
import ArmXv6.Quiet

namespace ArmXv6.MemoryStops

open Lib.Exec Lib.Bytes Param Blocks Fs Content Vm Kernel Proc Exec Descriptors Syscall Quiet

/-- Memory code that stops with panics of its own only. -/
abbrev Tame {α : Type} (ok : Stop → Prop) (m : MmM α) : Prop := Stable ok (fun _ => ()) m

variable {ok : Stop → Prop} (hok : Below ok)

include hok

omit hok in
theorem tame_setRam (g : Mem PHYSTOP → Mem PHYSTOP) : Tame ok (setRam g) := .update fun _ => rfl

theorem tame_kfree (v : Nat) : Tame ok (kfree v) := by
  refine .bind .fetch fun m => .ite (.panic (hok.2 _ (by decide) (by decide)))
    (.ite (.panic (hok.2 _ (by decide) (by decide))) (.ite (.panic (hok.2 _ (by decide) (by decide))) ?_))
  exact .bind (tame_setRam _) fun _ => .update fun _ => rfl

omit hok in
theorem tame_kalloc : Tame ok kalloc := by
  refine .bind .fetch fun m => ?_
  cases m.freelist with
  | nil => exact .pure _
  | cons x rest => exact .bind (.update fun _ => rfl) fun _ => .pure _

omit hok in
theorem tame_walkpgdir (pgdir va : Nat) (alloc : Bool) : Tame ok (walkpgdir pgdir va alloc) := by
  refine .bind .fetch fun m => .ite (.pure _) (.ite (.pure _) (.bind tame_kalloc fun a => ?_))
  cases a with
  | none => exact .pure _
  | some pgtab => exact .bind (tame_setRam _) fun _ => .bind (tame_setRam _) fun _ => .pure _

theorem tame_mappages (pgdir va size pa ap : Nat) : Tame ok (mappages pgdir va size pa ap) := by
  have hloop : ∀ last fuel a pa, Tame ok (mappages.loop pgdir ap last fuel a pa) := by
    intro last fuel
    induction fuel with
    | zero => exact fun _ _ => .pure _
    | succ fuel ih =>
        intro a pa
        refine .bind (tame_walkpgdir _ _ _) fun x => ?_
        cases x with
        | none => exact .pure _
        | some pte =>
            refine .bind .fetch fun m => .ite (.panic (hok.2 _ (by decide) (by decide))) ?_
            exact .bind (tame_setRam _) fun _ => .ite (.pure _) (ih _ _)
  exact hloop _ _ _ _

theorem tame_deallocuvm (pgdir oldsz newsz : Nat) : Tame ok (deallocuvm pgdir oldsz newsz) := by
  have hloop : ∀ fuel a, Tame ok (deallocuvm.loop pgdir oldsz fuel a) := by
    intro fuel
    induction fuel with
    | zero => exact fun _ => .pure _
    | succ fuel ih =>
        intro a
        refine .ite (.bind (tame_walkpgdir _ _ _) fun x => ?_) (.pure _)
        cases x with
        | none => exact ih _
        | some pte =>
            refine .bind .fetch fun m => .bind (.ite (.ite (.panic (hok.2 _ (by decide) (by decide))) ?_) (.pure _))
              fun _ => ih _
            exact .bind (tame_kfree hok _) fun _ => tame_setRam _
  exact .ite (.pure _) (.bind (hloop _ _) fun _ => .pure _)

theorem tame_allocuvm (pgdir oldsz newsz : Nat) : Tame ok (allocuvm pgdir oldsz newsz) := by
  have hloop : ∀ fuel a, Tame ok (allocuvm.loop pgdir oldsz newsz fuel a) := by
    intro fuel
    induction fuel with
    | zero => exact fun _ => .pure _
    | succ fuel ih =>
        intro a
        refine .ite (.bind tame_kalloc fun x => ?_) (.pure _)
        cases x with
        | none => exact .bind (tame_deallocuvm hok _ _ _) fun _ => .pure _
        | some mem =>
            refine .bind (tame_setRam _) fun _ => .bind (tame_mappages hok _ _ _ _ _) fun _ => ?_
            exact .bind (.ite (.emit _) (.pure _)) fun _ => ih _
  exact .ite (.pure _) (.ite (.pure _) (hloop _ _))

theorem tame_freevm (pgdir : Nat) : Tame ok (freevm pgdir) := by
  have hloop : ∀ l, Tame ok (freevm.loop pgdir l) := by
    intro l
    induction l with
    | nil => exact .pure _
    | cons i l ih => exact .bind .fetch fun m => .bind (.ite (tame_kfree hok _) (.pure _)) fun _ => ih
  refine .ite (.panic (hok.2 _ (by decide) (by decide))) ?_
  exact .bind (tame_deallocuvm hok _ _ _) fun _ => .bind (hloop _) fun _ => tame_kfree hok _

theorem tame_clearpteu (pgdir uva : Nat) : Tame ok (clearpteu pgdir uva) := by
  refine .bind (tame_walkpgdir _ _ _) fun x => ?_
  cases x with
  | none => exact .panic (hok.2 _ (by decide) (by decide))
  | some pte => exact tame_setRam _

theorem tame_copyuvm (pgdir sz : Nat) : Tame ok (copyuvm pgdir sz) := by
  have hloop : ∀ d fuel i, Tame ok (copyuvm.loop pgdir sz d fuel i) := by
    intro d fuel
    induction fuel with
    | zero => exact fun _ => .pure _
    | succ fuel ih =>
        intro i
        refine .ite (.bind (tame_walkpgdir _ _ _) fun x => ?_) (.pure _)
        cases x with
        | none => exact .panic (hok.2 _ (by decide) (by decide))
        | some pte =>
            refine .bind .fetch fun m => .ite (.panic (hok.2 _ (by decide) (by decide))) (.bind tame_kalloc fun y => ?_)
            cases y with
            | none => exact .bind (tame_freevm hok _) fun _ => .pure _
            | some mem =>
                refine .bind (tame_setRam _) fun _ => .bind (tame_mappages hok _ _ _ _ _) fun _ => .ite ?_ (ih _)
                exact .bind (.emit _) fun _ => .bind (tame_freevm hok _) fun _ => .pure _
  refine .bind tame_kalloc fun x => ?_
  cases x with
  | none => exact .pure _
  | some d => exact hloop d _ _

theorem tame_loadUser (curpgdir va : Nat) : Tame ok (loadUser curpgdir va) := by
  refine .bind (tame_walkpgdir _ _ _) fun x => ?_
  cases x with
  | none => exact .panic (hok.2 _ (by decide) (by decide))
  | some pte => exact .bind .fetch fun m => .ite (.panic (hok.2 _ (by decide) (by decide))) (.pure _)

theorem tame_uva2ka (curpgdir pgdir uva : Nat) : Tame ok (uva2ka curpgdir pgdir uva) := by
  refine .bind (tame_walkpgdir _ _ _) fun x => .bind ?_ fun w => ?_
  · cases x with
    | none => exact tame_loadUser hok _ _
    | some pte => exact .bind .fetch fun m => .pure _
  · exact .ite (.pure _) (.ite (.pure _) (.bind (.ite (.emit _) (.pure _)) fun _ => .pure _))

theorem tame_copyout (curpgdir pgdir va : Nat) (buf : List UInt8) : Tame ok (copyout curpgdir pgdir va buf) := by
  have hloop : ∀ fuel va buf, Tame ok (copyout.loop curpgdir pgdir fuel va buf) := by
    intro fuel
    induction fuel with
    | zero => exact fun _ _ => .pure _
    | succ fuel ih =>
        intro va buf
        refine .ite (.bind (tame_uva2ka hok _ _ _) fun x => ?_) (.pure _)
        cases x with
        | none => exact .pure _
        | some pa0 => exact .bind (tame_setRam _) fun _ => ih _ _
  exact hloop _ _ _

theorem tame_pushArgs (curpgdir pgdir : Nat) (args : List (List UInt8)) (sp : Nat) (ustack : List Nat) :
    Tame ok (exec.pushArgs curpgdir pgdir args sp ustack) := by
  induction args generalizing sp ustack with
  | nil => exact .pure _
  | cons arg rest ih => exact .ite (.pure _) (.bind (tame_copyout hok _ _ _ _) fun _ => .ite (.pure _) (ih _ _))

theorem tame_storeUser (curpgdir va : Nat) (l : List UInt8) : Tame ok (storeUser curpgdir va l) := by
  induction l generalizing va with
  | nil => exact .pure _
  | cons b l ih =>
      refine .bind (tame_walkpgdir _ _ _) fun x => ?_
      cases x with
      | none => exact .panic (hok.2 _ (by decide) (by decide))
      | some pte =>
          refine .bind .fetch fun m => .ite (.panic (hok.2 _ (by decide) (by decide))) ?_
          exact .bind (tame_setRam _) fun _ => ih _

theorem tame_storeStat (curpgdir addr : Nat) (st : Stat) : Tame ok (storeStat curpgdir addr st) :=
  .bind (tame_storeUser hok _ _ _) fun _ => .bind (tame_storeUser hok _ _ _) fun _ =>
    .bind (tame_storeUser hok _ _ _) fun _ => .bind (tame_storeUser hok _ _ _) fun _ => tame_storeUser hok _ _ _

end ArmXv6.MemoryStops
