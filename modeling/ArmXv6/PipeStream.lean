import ArmXv6.Kernel
import ArmXv6.Lib.Fifo

namespace ArmXv6.PipeStream

open Lib.Bytes Lib.Fifo Param Blocks Vm Kernel

/-- A process that uses the pipe. A writer knows what is left to store. asleep stands for
the state SLEEPING on the counter that the call waits for. -/
inductive User
  | idle
  | writer (n : Int) (rest : List UInt8) (asleep : Bool)
  | reader (n : Int) (asleep : Bool)

/-- A pipe with the processes that hold descriptors of it. -/
structure Sys where
  pipe : Pipe
  users : Nat → User
  killed : Nat → Bool
  freed : Bool

/-- The copies into the pipe one by one, and the results of the calls. -/
inductive Event
  | stored (b : UInt8)
  | wrote (u : Nat) (r : Int)
  | read (u : Nat) (n r : Int) (bytes : List UInt8)

def stored (t : List Event) : List UInt8 :=
  t.filterMap fun e => match e with
    | .stored b => some b
    | _ => none

def returned (t : List Event) : List UInt8 :=
  t.flatMap fun e => match e with
    | .read _ _ _ bytes => bytes
    | _ => []

def put (p : Pipe) (b : UInt8) : Pipe :=
  { p with data := Function.update p.data (p.nwrite % PIPESIZE) b, nwrite := uint (p.nwrite + 1) }

/-- Why the loop of pipewrite ends. -/
inductive Halt
  | done
  | broken
  | full

/-- The copies up to the next sleep: the reason to stop, what is left and the pipe. -/
def pipewrite.loop : List UInt8 → Pipe → Halt × List UInt8 × Pipe × List Event
  | [], p => (.done, [], p, [])
  | b :: rest, p =>
      if p.nwrite = uint (p.nread + PIPESIZE) then
        if ¬p.readopen then (.broken, b :: rest, p, []) else (.full, b :: rest, p, [])
      else
        let r := pipewrite.loop rest (put p b)
        (r.1, r.2.1, r.2.2.1, .stored b :: r.2.2.2)

def piperead.loop : Nat → Pipe → List UInt8 × Pipe
  | 0, p => ([], p)
  | n + 1, p =>
      if p.nread = p.nwrite then ([], p)
      else
        let r := piperead.loop n { p with nread := uint (p.nread + 1) }
        (p.data (p.nread % PIPESIZE) :: r.1, r.2)

def wakeReader : User → User
  | .reader n _ => .reader n false
  | u => u

def wakeWriter : User → User
  | .writer n rest _ => .writer n rest false
  | u => u

/-- pipewrite from its start, or from its sleep. -/
def pipewrite (s : Sys) (u : Nat) (n : Int) (rest : List UInt8) : Sys × List Event :=
  let r := pipewrite.loop rest s.pipe
  match r.1 with
  | .done =>
      ({ s with pipe := r.2.2.1, users := Function.update (wakeReader ∘ s.users) u .idle }, r.2.2.2 ++ [.wrote u n])
  | .broken => ({ s with pipe := r.2.2.1, users := Function.update s.users u .idle }, r.2.2.2 ++ [.wrote u (-1)])
  | .full =>
      ({ s with pipe := r.2.2.1, users := Function.update (wakeReader ∘ s.users) u (.writer n r.2.1 true) }, r.2.2.2)

/-- piperead from its start, or from its sleep. -/
def piperead (s : Sys) (u : Nat) (n : Int) : Sys × List Event :=
  if s.pipe.nread = s.pipe.nwrite ∧ s.pipe.writeopen then
    if s.killed u then ({ s with users := Function.update s.users u .idle }, [.read u n (-1) []])
    else ({ s with users := Function.update s.users u (.reader n true) }, [])
  else
    let r := piperead.loop n.toNat s.pipe
    ({ s with pipe := r.2, users := Function.update (wakeWriter ∘ s.users) u .idle }, [.read u n r.1.length r.1])

def pipeclose (s : Sys) (writable : Bool) : Sys :=
  let p := if writable then { s.pipe with writeopen := false } else { s.pipe with readopen := false }
  { s with
    pipe := p
    users := (if writable then wakeReader else wakeWriter) ∘ s.users
    freed := ¬p.readopen ∧ ¬p.writeopen }

inductive Action
  | write (u : Nat) (addr : Nat → UInt8) (n : Int)
  | read (u : Nat) (n : Int)
  | resume (u : Nat)
  | close (writable : Bool)
  | kill (u : Nat)

/-- The calls and what happens between them while the pipe exists. -/
def step (s : Sys) (a : Action) : Option (Sys × List Event) :=
  if s.freed then none
  else
    match a with
    | .write u addr n =>
        match s.users u with
        | .idle => some (pipewrite s u n ((List.range n.toNat).map addr))
        | _ => none
    | .read u n =>
        match s.users u with
        | .idle => some (piperead s u n)
        | _ => none
    | .resume u =>
        match s.users u with
        | .writer n rest false => some (pipewrite s u n rest)
        | .reader n false => some (piperead s u n)
        | _ => none
    | .close writable => some (pipeclose s writable, [])
    | .kill u =>
        some ({ s with
          killed := Function.update s.killed u true
          users := Function.update s.users u (wakeReader (wakeWriter (s.users u))) }, [])

/-- The pipe that pipealloc sets up in a frame with any content. -/
def pipealloc (data : Nat → UInt8) : Pipe := ⟨data, 0, 0, true, true⟩

inductive Reaches : Sys → List Event → Prop
  | start (data : Nat → UInt8) (killed : Nat → Bool) :
      Reaches ⟨pipealloc data, fun _ => .idle, killed, false⟩ []
  | step {s s' : Sys} {t e : List Event} {a : Action} (h : Reaches s t) (hs : step s a = some (s', e)) :
      Reaches s' (t ++ e)

/-- The difference of the counters as the code computes it. -/
def filled (p : Pipe) : Nat := count (2 ^ 32) p.nread p.nwrite

def buffer (p : Pipe) : List UInt8 := contents PIPESIZE (2 ^ 32) p.data p.nread p.nwrite

structure Sound (p : Pipe) : Prop where
  nread : p.nread < 2 ^ 32
  nwrite : p.nwrite < 2 ^ 32
  fits : filled p ≤ PIPESIZE

theorem pipesize_dvd : PIPESIZE ∣ 2 ^ 32 := by decide

theorem Sound.full_iff {p : Pipe} (h : Sound p) : p.nwrite = uint (p.nread + PIPESIZE) ↔ filled p = PIPESIZE :=
  Lib.Fifo.full_iff h.nread h.nwrite (by decide)

theorem Sound.put {p : Pipe} (h : Sound p) (hf : p.nwrite ≠ uint (p.nread + PIPESIZE)) (b : UInt8) :
    Sound (put p b) ∧ buffer (put p b) = buffer p ++ [b] := by
  have hlt : filled p < PIPESIZE := lt_of_le_of_ne h.fits (h.full_iff.not.mp hf)
  have hlt' : PIPESIZE < 2 ^ 32 := by decide
  refine ⟨⟨h.nread, Nat.mod_lt _ (by decide), ?_⟩, ?_⟩
  · have hc : count (2 ^ 32) p.nread p.nwrite + 1 < 2 ^ 32 := by unfold filled at hlt; omega
    have : filled (PipeStream.put p b) = filled p + 1 := count_push h.nread h.nwrite hc
    omega
  · exact contents_push p.data b pipesize_dvd h.nread h.nwrite hlt' hlt

theorem Sound.pop {p : Pipe} (h : Sound p) (hne : p.nread ≠ p.nwrite) :
    Sound { p with nread := uint (p.nread + 1) } ∧
      buffer p = p.data (p.nread % PIPESIZE) :: buffer { p with nread := uint (p.nread + 1) } := by
  refine ⟨⟨Nat.mod_lt _ (by decide), h.nwrite, ?_⟩, contents_pop p.data pipesize_dvd h.nread h.nwrite hne⟩
  have : filled p = filled { p with nread := uint (p.nread + 1) } + 1 := count_pop h.nread h.nwrite hne
  have := h.fits
  omega

theorem buffer_eq_nil {p : Pipe} (h : Sound p) (he : p.nread = p.nwrite) : buffer p = [] := by
  unfold buffer
  rw [← he]
  exact contents_self p.data h.nread

theorem writeLoop_spec (rest : List UInt8) {p : Pipe} (h : Sound p) :
    let r := pipewrite.loop rest p
    Sound r.2.2.1 ∧ buffer r.2.2.1 = buffer p ++ stored r.2.2.2 ∧ returned r.2.2.2 = [] ∧
      ∀ e ∈ r.2.2.2, ∃ b, e = .stored b := by
  induction rest generalizing p with
  | nil => exact ⟨h, (List.append_nil _).symm, rfl, fun _ he => by cases he⟩
  | cons b rest ih =>
      unfold pipewrite.loop
      split
      case isTrue =>
          split <;> exact ⟨h, (List.append_nil _).symm, rfl, fun _ he => by cases he⟩
      case isFalse hf =>
          obtain ⟨hs, hb⟩ := h.put hf b
          obtain ⟨h₁, h₂, h₃, h₄⟩ := ih hs
          refine ⟨h₁, ?_, h₃, ?_⟩
          · dsimp only
            rw [h₂, hb, List.append_assoc]
            rfl
          · intro e he
            rcases List.mem_cons.mp he with rfl | he
            · exact ⟨b, rfl⟩
            · exact h₄ e he

theorem readLoop_spec (n : Nat) {p : Pipe} (h : Sound p) :
    let r := piperead.loop n p
    Sound r.2 ∧ buffer p = r.1 ++ buffer r.2 ∧ r.2.writeopen = p.writeopen ∧
      (r.1 = [] → n = 0 ∨ p.nread = p.nwrite) := by
  induction n generalizing p with
  | zero => exact ⟨h, (List.nil_append _).symm, rfl, fun _ => .inl rfl⟩
  | succ n ih =>
      unfold piperead.loop
      split
      case isTrue he => exact ⟨h, (List.nil_append _).symm, rfl, fun _ => .inr he⟩
      case isFalse hne =>
          obtain ⟨hs, hb⟩ := h.pop hne
          obtain ⟨h₁, h₂, h₃, -⟩ := ih hs
          refine ⟨h₁, ?_, h₃, fun e => by cases e⟩
          dsimp only
          rw [hb, h₂, List.cons_append]

theorem stored_append (t u : List Event) : stored (t ++ u) = stored t ++ stored u := List.filterMap_append

theorem returned_append (t u : List Event) : returned (t ++ u) = returned t ++ returned u := List.flatMap_append

/-- The stream of the bytes stored is the stream of the bytes returned, then the buffer. -/
structure Streams (p : Pipe) (t : List Event) : Prop where
  sound : Sound p
  eq : stored t = returned t ++ buffer p

/-- piperead returns 0 for a positive count only at the end of a closed stream. -/
def Ends (p : Pipe) (t : List Event) (e : Event) : Prop :=
  ∀ u n bytes, e = .read u n 0 bytes → 0 < n → p.writeopen = false ∧ stored t = returned t

theorem pipewrite_spec {s : Sys} {t : List Event} (h : Streams s.pipe t) (u : Nat) (n : Int) (rest : List UInt8) :
    Streams (pipewrite s u n rest).1.pipe (t ++ (pipewrite s u n rest).2) ∧
      ∀ e ∈ (pipewrite s u n rest).2, ∀ v m r bytes, e ≠ .read v m r bytes := by
  obtain ⟨h₁, h₂, h₃, h₄⟩ := writeLoop_spec rest h.sound
  have hev : ∀ e ∈ (pipewrite.loop rest s.pipe).2.2.2, ∀ v m r bytes, e ≠ .read v m r bytes := by
    intro e he v m r bytes hr
    obtain ⟨b, rfl⟩ := h₄ e he
    cases hr
  -- the end of the call adds no bytes to either stream
  have hend : ∀ l : List Event, stored l = [] → returned l = [] →
      Streams (pipewrite.loop rest s.pipe).2.2.1 (t ++ ((pipewrite.loop rest s.pipe).2.2.2 ++ l)) := by
    intro l hs hr
    refine ⟨h₁, ?_⟩
    rw [stored_append, stored_append, returned_append, returned_append, hs, hr, h₃, h.eq, h₂]
    simp
  unfold pipewrite
  dsimp only
  split
  case h_1 | h_2 =>
      refine ⟨hend _ rfl rfl, fun e he v m r bytes => ?_⟩
      rcases List.mem_append.mp he with he | he
      · exact hev e he v m r bytes
      · rw [List.mem_singleton.mp he]
        exact fun hr => by cases hr
  case h_3 =>
      refine ⟨?_, hev⟩
      have := hend [] rfl rfl
      rwa [List.append_nil] at this

theorem piperead_spec {s : Sys} {t : List Event} (h : Streams s.pipe t) (u : Nat) (n : Int) :
    Streams (piperead s u n).1.pipe (t ++ (piperead s u n).2) ∧
      ∀ e ∈ (piperead s u n).2, Ends (piperead s u n).1.pipe (t ++ (piperead s u n).2) e := by
  unfold piperead
  split
  case isTrue =>
      split
      case isTrue =>
          refine ⟨⟨h.sound, ?_⟩, fun e he v m bytes hr => ?_⟩
          · rw [stored_append, returned_append]
            simpa [stored, returned] using h.eq
          · rw [List.mem_singleton.mp he] at hr
            cases hr
      case isFalse =>
          refine ⟨?_, fun e he => by cases he⟩
          rw [List.append_nil]
          exact h
  case isFalse hc =>
      obtain ⟨h₁, h₂, h₃, h₄⟩ := readLoop_spec n.toNat h.sound
      have hst : stored (t ++ [.read u n (piperead.loop n.toNat s.pipe).1.length (piperead.loop n.toNat s.pipe).1]) =
          stored t := by
        rw [stored_append]
        exact List.append_nil _
      have hre : returned (t ++ [.read u n (piperead.loop n.toNat s.pipe).1.length (piperead.loop n.toNat s.pipe).1]) =
          returned t ++ (piperead.loop n.toNat s.pipe).1 := by
        rw [returned_append]
        simp [returned]
      refine ⟨⟨h₁, ?_⟩, fun e he v m bytes hr hm => ?_⟩
      · dsimp only
        rw [hst, hre, h.eq, h₂, List.append_assoc]
      · rw [List.mem_singleton.mp he] at hr
        simp only [Event.read.injEq, Int.natCast_eq_zero, List.length_eq_zero_iff] at hr
        obtain ⟨rfl, rfl, hnil, -⟩ := hr
        -- nothing was copied although something was asked for: the ring was empty
        have hempty : s.pipe.nread = s.pipe.nwrite := (h₄ hnil).resolve_left (by omega)
        refine ⟨h₃.trans ?_, ?_⟩
        · simpa [hempty] using hc
        · rw [hst, hre, hnil, List.append_nil, h.eq, buffer_eq_nil h.sound hempty, List.append_nil]

theorem step_spec {s s' : Sys} {t e : List Event} {a : Action} (h : Streams s.pipe t)
    (hs : step s a = some (s', e)) :
    Streams s'.pipe (t ++ e) ∧ ∀ x ∈ e, Ends s'.pipe (t ++ e) x := by
  have hwrite : ∀ u n rest, some (pipewrite s u n rest) = some (s', e) →
      Streams s'.pipe (t ++ e) ∧ ∀ x ∈ e, Ends s'.pipe (t ++ e) x := by
    intro u n rest hw
    have hp := pipewrite_spec h u n rest
    rw [Option.some.inj hw] at hp
    exact ⟨hp.1, fun x hx v m bytes hr => absurd hr (hp.2 x hx v m 0 bytes)⟩
  have hread : ∀ u n, some (piperead s u n) = some (s', e) →
      Streams s'.pipe (t ++ e) ∧ ∀ x ∈ e, Ends s'.pipe (t ++ e) x := by
    intro u n hr
    have hp := piperead_spec h u n
    rw [Option.some.inj hr] at hp
    exact hp
  unfold step at hs
  split at hs
  case isTrue => cases hs
  case isFalse =>
      cases a with
      | write u addr n =>
          dsimp only at hs
          split at hs
          case h_1 => exact hwrite u n _ hs
          case h_2 => cases hs
      | read u n =>
          dsimp only at hs
          split at hs
          case h_1 => exact hread u n hs
          case h_2 => cases hs
      | resume u =>
          dsimp only at hs
          split at hs
          case h_1 n rest _ => exact hwrite u n rest hs
          case h_2 n _ => exact hread u n hs
          case h_3 => cases hs
      | close writable =>
          cases hs
          rw [List.append_nil]
          refine ⟨?_, fun x hx => by cases hx⟩
          unfold pipeclose
          dsimp only
          split
          case isTrue => exact ⟨⟨h.sound.nread, h.sound.nwrite, h.sound.fits⟩, h.eq⟩
          case isFalse => exact ⟨⟨h.sound.nread, h.sound.nwrite, h.sound.fits⟩, h.eq⟩
      | kill u =>
          cases hs
          rw [List.append_nil]
          exact ⟨h, fun x hx => by cases hx⟩

theorem Reaches.streams {s : Sys} {t : List Event} (h : Reaches s t) : Streams s.pipe t := by
  induction h with
  | start data killed =>
      have hc : count (2 ^ 32) 0 0 ≤ PIPESIZE := by decide
      have hs : Sound (pipealloc data) := ⟨Nat.two_pow_pos 32, Nat.two_pow_pos 32, hc⟩
      refine ⟨hs, ?_⟩
      rw [buffer_eq_nil hs rfl]
      rfl
  | step _ hs ih => exact (step_spec ih hs).1

/-- A pipe is a reliable stream for any number of readers and writers: the counters differ
by at most PIPESIZE, what was returned and then the buffer make up what was stored, and a
read returns 0 only when the write end is closed and all is read. -/
theorem pipe_stream (s : Sys) (t : List Event) (h : Reaches s t) :
    (s.pipe.nwrite + 2 ^ 32 - s.pipe.nread) % 2 ^ 32 ≤ PIPESIZE ∧
      stored t = returned t ++ buffer s.pipe ∧
      (buffer s.pipe).length = (s.pipe.nwrite + 2 ^ 32 - s.pipe.nread) % 2 ^ 32 ∧
      ∀ a s' e u n bytes, step s a = some (s', e) → .read u n 0 bytes ∈ e → 0 < n →
        s'.pipe.writeopen = false ∧ stored (t ++ e) = returned (t ++ e) := by
  have hs := Reaches.streams h
  exact ⟨hs.sound.fits, hs.eq, length_contents .., fun a s' e u n bytes hstep he hn =>
    (step_spec hs hstep).2 _ he u n bytes rfl hn⟩

/-- One byte is written, the write end is closed, and of two reads the second returns 0. -/
theorem pipe_stream_drained : ∃ s t s' e, Reaches s t ∧ step s (.read 1 4) = some (s', e) ∧
    stored t = [5] ∧ .read 1 4 0 [] ∈ e ∧ s'.pipe.writeopen = false ∧ stored (t ++ e) = returned (t ++ e) := by
  have h₀ := Reaches.start (fun _ => 0) fun _ => false
  have h₁ := h₀.step (a := .write 0 (fun _ => 5) 1) rfl
  have h₂ := h₁.step (a := .close true) rfl
  have h₃ := h₂.step (a := .read 1 4) rfl
  refine ⟨_, _, _, _, h₃, rfl, rfl, List.mem_singleton.mpr rfl, ?_⟩
  exact (pipe_stream _ _ h₃).2.2.2 (.read 1 4) _ _ 1 4 [] rfl (List.mem_singleton.mpr rfl) (by decide)

end ArmXv6.PipeStream
