import ArmXv6.Syscall
import ArmXv6.Growproc

namespace ArmXv6.UserBuffers

open Lib.Exec Lib.Bytes Param Blocks Fs Content Vm Kernel Proc Exec Descriptors Syscall

/-- The value in an argument register, as the pointer that the code takes it for. -/
def argument (k : Kstate) (n : Nat) : Nat := (k.procs k.cur).tf.r (n + 1)

/-- A successful argptr gives a buffer inside the process. -/
def PointerOk (k : Kstate) (n : Nat) (size : Int) : Prop :=
  ∀ p k' e, argptr n size k = .ok (some p) k' e → 0 ≤ size ∧ p + size ≤ (k.procs k.cur).sz

/-- A successful fetchstr gives a string that ends inside the process. -/
def StringOk (k : Kstate) (addr : Nat) : Prop :=
  ∀ len k' e, fetchstr addr k = .ok (some len) k' e →
    addr + len < (k.procs k.cur).sz ∧ loadByte (k.procs k.cur).pgdir (addr + len) k.mm = .ok 0 k.mm []

/-- read stores into its buffer, inside the process, and nothing for a negative count. -/
def ReadOk (k : Kstate) : Prop :=
  ∀ r p bytes k' e, sysRead k = .ok (r, p, bytes) k' e → bytes ≠ [] →
    p = argument k 1 ∧ (bytes.length : Int) ≤ sint (argument k 2) ∧ p + sint (argument k 2) ≤ (k.procs k.cur).sz

/-- What argptr for a buffer of the size, argstr for the same register and, where the register
and the size are those of read, read itself do with user memory. -/
def Confined (k : Kstate) (n : Nat) (size : Int) : Prop :=
  PointerOk k n size ∧ (∀ addr, StringOk k addr) ∧
    (∀ p len k' e, argstr n k = .ok (some (p, len)) k' e →
      p = argument k n ∧ p + len < (k.procs k.cur).sz ∧ loadByte (k.procs k.cur).pgdir (p + len) k.mm = .ok 0 k.mm []) ∧
    (n = 1 → size = sint (argument k 2) → ReadOk k)

/-- A negative size that leads to an address of the process. -/
def Backwards (k : Kstate) (n : Nat) (size : Int) : Prop :=
  size < 0 ∧ argument k n < (k.procs k.cur).sz ∧ 0 ≤ argument k n + size

/-- Every result of the program has the property. -/
abbrev Gives {ε σ α : Type} (m : Prog ε σ α) (Q : α → Prop) : Prop :=
  ∀ s, (m s).Holds (fun _ => True) (fun a _ => Q a) fun _ _ => True

theorem Gives.bind {ε σ α β : Type} {m : Prog ε σ β} {f : β → Prog ε σ α} {P : β → Prop} {Q : α → Prop} (hm : Gives m P)
    (hf : ∀ b, P b → Gives (f b) Q) : Gives (m >>= f) Q := by
  intro s
  rw [holds_bind]
  exact (hm s).mono (fun b s' hb => hf b hb s') fun _ _ h => h

theorem gives_any {ε σ α : Type} (m : Prog ε σ α) : Gives m fun _ => True := by
  intro s
  cases m s with
  | ok a s' t => exact fun _ => trivial
  | stop w s' t => exact fun _ => trivial

theorem Gives.then {ε σ α β : Type} {m : Prog ε σ β} {f : β → Prog ε σ α} {Q : α → Prop} (hf : ∀ b, Gives (f b) Q) :
    Gives (m >>= f) Q :=
  (gives_any m).bind fun b _ => hf b

theorem gives_pure {ε σ α : Type} {a : α} {Q : α → Prop} (h : Q a) : Gives (pure a : Prog ε σ α) Q := by
  intro s
  rw [holds_pure]
  exact h

theorem gives_ite {ε σ α : Type} {c : Prop} [Decidable c] {m n : Prog ε σ α} {Q : α → Prop} (hm : c → Gives m Q)
    (hn : ¬c → Gives n Q) :
    Gives (if c then m else n) Q := by
  by_cases hc : c
  · rw [if_pos hc]
    exact hm hc
  · rw [if_neg hc]
    exact hn hc

theorem gives_onFs {α : Type} {m : FsM α} {Q : α → Prop} (h : Gives m Q) : Gives (onFs m) Q := by
  intro k
  unfold onFs
  rw [holds_zoom]
  exact h k.fs

theorem gives_stop {ε σ α : Type} (msg : String) {Q : α → Prop} : Gives (Prog.panic msg : Prog ε σ α) Q := by
  intro s
  rw [holds_panic]
  trivial

theorem consoleread_length (ip n : Nat) : Gives (Content.consoleread ip n) fun r =>
    (r.2.length : Int) ≤ max 0 (sint n) := by
  have hloop : ∀ n acc, Gives (consoleread.loop n acc) fun r => r.2.length ≤ acc.length + n := by
    intro n
    induction n with
    | zero => exact fun acc => gives_pure (Nat.le_refl _)
    | succ n ih =>
        intro acc
        unfold consoleread.loop
        refine .then fun fs => ?_
        cases fs.input with
        | nil =>
            intro s
            rw [holds_sleep]
            trivial
        | cons c rest =>
            cases c with
            | none => exact .then fun _ => gives_pure (Nat.le_add_right _ _)
            | some c =>
                refine gives_ite (fun _ => .then fun _ => gives_pure (Nat.le_add_right _ _)) fun _ =>
                  .then fun _ => gives_ite (fun _ => ?_) fun _ => ?_
                · refine gives_pure ?_
                  rw [List.length_append, List.length_singleton]
                  omega
                · intro s
                  refine (ih (acc ++ [c]) s).mono (fun r _ hl => ?_) fun _ _ h => h
                  rw [List.length_append, List.length_singleton] at hl
                  omega
  unfold Content.consoleread
  refine .then fun _ => (hloop _ _).bind fun r hl => .then fun _ => gives_pure ?_
  simp only [List.length_nil, Nat.zero_add] at hl
  omega

theorem readi_length (ip off n : Nat) (hn : n < 2 ^ 31) : Gives (readi ip off n) fun r => r.2.length ≤ n := by
  have hloop : ∀ n fuel tot off acc, acc.length = tot → Gives (readi.loop ip n fuel tot off acc) fun l =>
      l.length ≤ max n tot := by
    intro n fuel
    induction fuel with
    | zero => exact fun tot off acc h => gives_pure (by omega)
    | succ fuel ih =>
        intro tot off acc h
        unfold readi.loop
        refine gives_ite (fun hlt => .then fun b => .then fun bp => .then fun _ => ?_) fun _ => gives_pure (by omega)
        intro s
        refine (ih _ _ _ ?_ s).mono (fun l _ hl => ?_) fun _ _ h => h
        · rw [List.length_append, Mem.length_slice, h]
        · omega
  unfold readi
  refine .then fun fs => gives_ite (fun _ => gives_ite (fun _ => ?_) fun _ => gives_pure (Nat.zero_le _)) fun _ =>
    gives_ite (fun _ => gives_pure (Nat.zero_le _)) fun hok => ?_
  · intro s
    refine (consoleread_length ip n s).mono (fun r _ hr => ?_) fun _ _ h => h
    have hs : sint n = n := if_pos hn
    rw [hs] at hr
    omega
  · refine (hloop _ _ 0 off [] rfl).bind fun l hl => gives_pure ?_
    have hle : (if (fs.icache ip).din.size < uint (off + n) then (fs.icache ip).din.size - off else n) ≤ n := by
      split
      · rename_i hlt
        have := Nat.mod_le (off + n) (2 ^ 32)
        unfold uint at hlt
        omega
      · exact Nat.le_refl n
    dsimp only
    omega

theorem piperead_length (p : Nat) (n : Int) (hn : 0 ≤ n) : Gives (Kernel.piperead p n) fun r =>
    (r.2.length : Int) ≤ n := by
  have hloop : ∀ fuel acc, (acc.length : Int) ≤ n → Gives (Kernel.piperead.loop p n fuel acc) fun l =>
      (l.length : Int) ≤ n := by
    intro fuel
    induction fuel with
    | zero => exact fun acc h => gives_pure h
    | succ fuel ih =>
        intro acc h
        unfold Kernel.piperead.loop
        refine .then fun k => gives_ite (fun hc => .then fun _ => ih _ ?_) fun _ => gives_pure h
        rw [List.length_append, List.length_singleton]
        omega
  unfold Kernel.piperead
  refine .then fun k => gives_ite (fun _ => gives_ite (fun _ => gives_pure hn) fun _ => ?_) fun _ => ?_
  · intro s
    rw [holds_sleep]
    trivial
  · exact (hloop _ [] hn).bind fun l hl => gives_pure hl

theorem fileread_length (f : Nat) (n : Int) (hn : 0 ≤ n) (hlt : n < 2 ^ 31) : Gives (fileread f n) fun r =>
    (r.2.length : Int) ≤ n := by
  unfold fileread
  refine .then fun k => gives_ite (fun _ => gives_pure hn) fun _ => ?_
  cases (k.ftable f).type with
  | none => exact gives_stop _
  | pipe => exact piperead_length _ n hn
  | inode =>
      have hb : bits n = n.toNat := by
        unfold bits
        rw [Int.emod_eq_of_lt hn (by omega)]
      refine .then fun _ => (gives_onFs (readi_length _ _ (bits n) (by omega))).bind fun r hr => .then fun _ =>
        .then fun _ => gives_pure ?_
      omega

theorem bits_sint {w : Nat} (hw : w < 2 ^ 32) : bits (sint w) = w := by
  unfold bits sint
  split
  · rw [Int.emod_eq_of_lt (by omega) (by omega)]
    omega
  · rw [← Int.add_emod_right, Int.emod_eq_of_lt (by omega) (by omega)]
    omega

theorem sint_range {w : Nat} (hw : w < 2 ^ 32) : -2 ^ 31 ≤ sint w ∧ sint w < 2 ^ 31 := by
  unfold sint
  split <;> omega

variable {k : Kstate} {n : Nat} {size : Int}

theorem argint_eq (hn : n ≤ 3) : argint n k = .ok (sint (argument k n)) k [] := by
  unfold argint
  rw [if_neg (by omega)]
  simp only [proc, bind_apply, fetch_apply, pure_apply, Run.after, List.nil_append]
  rfl

theorem argptr_eq (hn : n ≤ 3) (hr : argument k n < 2 ^ 32) (size : Int) :
    argptr n size k = .ok (if (k.procs k.cur).sz ≤ argument k n ∨
      (k.procs k.cur).sz < bits (argument k n + size) then none
      else some (argument k n)) k [] := by
  unfold argptr
  simp only [bind_apply, argint_eq hn, Run.after, proc, fetch_apply, pure_apply, List.nil_append, bits_sint hr]
  by_cases hc : (k.procs k.cur).sz ≤ argument k n ∨ (k.procs k.cur).sz < bits (argument k n + size)
  · rw [if_pos hc, if_pos hc]
    rfl
  · rw [if_neg hc, if_neg hc]
    rfl

theorem bits_sum {a : Nat} {s : Int} (ha : a < 2 ^ 28) (hlo : -2 ^ 31 ≤ s) (hhi : s < 2 ^ 31) :
    bits (a + s) = if 0 ≤ a + s then (a + s).toNat else (a + s + 2 ^ 32).toNat := by
  unfold bits
  split
  · rw [Int.emod_eq_of_lt (by omega) (by omega)]
  · rw [← Int.add_emod_right, Int.emod_eq_of_lt (by omega) (by omega)]

theorem argptr_some_iff (hsz : (k.procs k.cur).sz < UADDR_SZ) (hlo : -2 ^ 31 ≤ size) (hhi : size < 2 ^ 31) :
    ¬((k.procs k.cur).sz ≤ argument k n ∨ (k.procs k.cur).sz < bits (argument k n + size)) ↔
      argument k n < (k.procs k.cur).sz ∧ 0 ≤ argument k n + size ∧ argument k n + size ≤ (k.procs k.cur).sz := by
  change (k.procs k.cur).sz < 268435456 at hsz
  by_cases ha : argument k n < (k.procs k.cur).sz
  · rw [bits_sum (by omega) hlo hhi]
    split <;> omega
  · omega

theorem pointerOk_iff (hn : n ≤ 3) (hr : argument k n < 2 ^ 32) (hsz : (k.procs k.cur).sz < UADDR_SZ)
    (hlo : -2 ^ 31 ≤ size)
    (hhi : size < 2 ^ 31) : PointerOk k n size ↔ ¬Backwards k n size := by
  have hiff := argptr_some_iff (k := k) (n := n) hsz hlo hhi
  have heq := argptr_eq hn hr size
  unfold PointerOk Backwards
  constructor
  · rintro h ⟨hneg, ha, hsum⟩
    rw [if_neg (hiff.2 ⟨ha, hsum, by omega⟩)] at heq
    have := (h _ _ _ heq).1
    omega
  · intro h p k' e hp
    rw [heq] at hp
    by_cases hc : (k.procs k.cur).sz ≤ argument k n ∨ (k.procs k.cur).sz < bits (argument k n + size)
    · rw [if_pos hc] at hp
      cases hp
    · rw [if_neg hc] at hp
      cases hp
      obtain ⟨h₁, h₂, h₃⟩ := hiff.1 hc
      exact ⟨by omega, h₃⟩

theorem loadByte_cases (d va : Nat) (m : Mm) : (∃ c, loadByte d va m = .ok c m []) ∨ ∃ w,
    loadByte d va m = .stop w m [] := by
  unfold loadByte
  simp only [bind_apply, AddressSpace.walkpgdir_eq, Run.after]
  cases AddressSpace.table m d (PDE_IDX va) with
  | none => exact .inr ⟨_, rfl⟩
  | some t =>
      simp only [Option.map_some, bind_apply, fetch_apply, Run.after, List.nil_append]
      by_cases hp : present (m.ram.word (t + 4 * PTE_IDX va)) = true
      · rw [if_neg (by simpa using hp)]
        exact .inl ⟨_, rfl⟩
      · rw [if_pos (by simpa using hp)]
        exact .inr ⟨_, rfl⟩

theorem fetchstr_loop (d ep fuel s len : Nat) {m m' : Mm} {l : Nat} {e : List Event}
    (h : fetchstr.loop d ep fuel s len m = .ok (some l) m' e) :
    len ≤ l ∧ s + (l - len) < ep ∧ loadByte d (s + (l - len)) m = .ok 0 m [] := by
  induction fuel generalizing s len e with
  | zero => cases h
  | succ fuel ih =>
      unfold fetchstr.loop at h
      by_cases hs : s < ep
      · rw [if_pos hs] at h
        rcases loadByte_cases d s m with ⟨c, hc⟩ | ⟨w, hw⟩
        · simp only [bind_apply, hc, Run.after, List.nil_append] at h
          by_cases hz : c = 0
          · subst hz
            rw [if_pos rfl] at h
            cases h
            rw [Nat.sub_self, Nat.add_zero]
            exact ⟨Nat.le_refl _, hs, hc⟩
          · rw [if_neg hz] at h
            cases hrun : fetchstr.loop d ep fuel (s + 1) (len + 1) m with
            | ok a m'' e'' =>
                rw [hrun] at h
                cases h
                obtain ⟨h₁, h₂, h₃⟩ := ih (s + 1) (len + 1) hrun
                have hadr : s + 1 + (l - (len + 1)) = s + (l - len) := by omega
                rw [hadr] at h₂ h₃
                exact ⟨by omega, h₂, h₃⟩
            | stop w m'' e'' =>
                rw [hrun] at h
                cases h
        · simp only [bind_apply, hw] at h
          cases h
      · rw [if_neg hs] at h
        cases h

theorem stringOk (k : Kstate) (addr : Nat) : StringOk k addr := by
  intro len k' e h
  unfold fetchstr at h
  simp only [proc, bind_apply, fetch_apply, pure_apply, Run.after, List.nil_append] at h
  by_cases ha : (k.procs k.cur).sz ≤ addr
  · rw [if_pos ha] at h
    cases h
  · rw [if_neg ha] at h
    unfold onMm zoom at h
    cases hrun : fetchstr.loop (k.procs k.cur).pgdir (k.procs k.cur).sz (k.procs k.cur).sz addr 0 k.mm with
    | ok a m e' =>
        rw [hrun] at h
        cases h
        obtain ⟨-, h₂, h₃⟩ := fetchstr_loop _ _ _ _ _ hrun
        rw [Nat.sub_zero] at h₂ h₃
        exact ⟨h₂, h₃⟩
    | stop w m e' =>
        rw [hrun] at h
        cases h

theorem argstr_ok (hn : n ≤ 3) (hr : argument k n < 2 ^ 32) {p len : Nat} {k' : Kstate} {e : List Event}
    (h : argstr n k = .ok (some (p, len)) k' e) :
    p = argument k n ∧ p + len < (k.procs k.cur).sz ∧
      loadByte (k.procs k.cur).pgdir (p + len) k.mm = .ok 0 k.mm [] := by
  unfold argstr at h
  simp only [bind_apply, argint_eq hn, Run.after, List.nil_append, bits_sint hr] at h
  cases hrun : fetchstr (argument k n) k with
  | ok a k₁ e₁ =>
      rw [hrun] at h
      cases a with
      | none => cases h
      | some l =>
          cases h
          exact ⟨rfl, stringOk k _ _ _ _ hrun⟩
  | stop w k₁ e₁ =>
      rw [hrun] at h
      cases h

theorem readOk (hsz : (k.procs k.cur).sz < UADDR_SZ) (hr : ∀ i, (k.procs k.cur).tf.r i < 2 ^ 32)
    (hb : ¬Backwards k 1 (sint (argument k 2))) : ReadOk k := by
  obtain ⟨hlo, hhi⟩ := sint_range (hr 3)
  intro r p bytes k' e h hne
  unfold sysRead at h
  simp only [bind_apply, argint_eq (show 0 ≤ 3 by decide), Run.after, fetch_apply, List.nil_append] at h
  cases hfd : argfd k (sint (argument k 0)) with
  | none =>
      rw [hfd] at h
      cases h
      exact absurd rfl hne
  | some f =>
      rw [hfd] at h
      simp only [bind_apply, argint_eq (show 2 ≤ 3 by decide), argptr_eq (show 1 ≤ 3 by decide) (hr 2), Run.after,
        List.nil_append] at h
      by_cases hc : (k.procs k.cur).sz ≤ argument k 1 ∨ (k.procs k.cur).sz < bits (argument k 1 + sint (argument k 2))
      · rw [if_pos hc] at h
        cases h
        exact absurd rfl hne
      · rw [if_neg hc] at h
        obtain ⟨h₁, h₂, h₃⟩ := (argptr_some_iff hsz hlo hhi).1 hc
        have hpos : 0 ≤ sint (argument k 2) := by
          by_contra hneg
          exact hb ⟨by omega, h₁, h₂⟩
        have hlen := fileread_length f (sint (argument k 2)) hpos hhi k
        simp only [fileReadAt, bind_apply] at h
        cases hrun : fileread f (sint (argument k 2)) k with
        | ok a k₁ e₁ =>
            rw [hrun] at h hlen
            cases h
            exact ⟨rfl, hlen fun _ _ => trivial, h₃⟩
        | stop w k₁ e₁ =>
            rw [hrun] at h
            cases h

/-- User memory is safe from the kernel except where argptr takes a negative size for a
buffer that ends inside the process. -/
theorem confined_iff (k : Kstate) (n : Nat) (size : Int) (hn : n ≤ 3) (hr : ∀ i, (k.procs k.cur).tf.r i < 2 ^ 32)
    (hsz : (k.procs k.cur).sz < UADDR_SZ) (hlo : -2 ^ 31 ≤ size) (hhi : size < 2 ^ 31) :
    Confined k n size ↔ ¬Backwards k n size := by
  have hptr := pointerOk_iff hn (hr (n + 1)) hsz hlo hhi
  refine ⟨fun h => hptr.1 h.1, fun h =>
    ⟨hptr.2 h, stringOk k, fun p len k' e hs => argstr_ok hn (hr (n + 1)) hs, fun hone hsize => ?_⟩⟩
  subst hone hsize
  exact readOk hsz hr h

/-- A process of one page calls read with a pointer into it and the count -1. -/
def backwards : Kstate :=
  { Growproc.onePage with
    procs := fun p => { Growproc.onePage.procs p with
      tf := ⟨fun i => if i = 2 then 100 else if i = 3 then 2 ^ 32 - 1 else 0, 0, 0⟩ } }

theorem backwards_registers (i : Nat) : (backwards.procs backwards.cur).tf.r i < 2 ^ 32 := by
  change (if i = 2 then 100 else if i = 3 then 2 ^ 32 - 1 else 0) < 2 ^ 32
  split
  · decide
  · split <;> decide

theorem confined_iff_page : Confined backwards 1 4 ∧ ¬Backwards backwards 1 4 := by
  have hb : ¬Backwards backwards 1 4 := fun h => absurd h.1 (by decide)
  exact ⟨(confined_iff backwards 1 4 (by decide) backwards_registers (by decide) (by decide) (by decide)).2 hb, hb⟩

theorem argptr_negative : ¬Confined backwards 1 (-1) := by
  intro h
  have hb := (pointerOk_iff (by decide) (backwards_registers 2) (by decide) (by decide) (by decide)).1 h.1
  exact hb ⟨by decide, by decide, by decide⟩

end ArmXv6.UserBuffers
