import ArmXv6.ProcInvariant

namespace ArmXv6.Kill

open Param Kernel ProcTable ProcInvariant

/-- A process in use has the pid. -/
def Named (s : Table) (pid : Int) (p : Fin NPROC) : Prop := (s.slots p).state ≠ .unused ∧ (s.slots p).pid = pid

instance (s : Table) (pid : Int) : DecidablePred (Named s pid) := fun p => by
  unfold Named
  infer_instance

def killed (s : Table) (p : Fin NPROC) : Table :=
  setSlot s p
    { s.slots p with
      killed := true
      state := if (s.slots p).state = .sleeping then .runnable else (s.slots p).state }

/-- kill finds exactly the processes in use and touches nothing else. -/
structure KillOk (s : Table) (pid : Int) : Prop where
  found : (kill s pid).1 = 0 ↔ ∃ p, Named s pid p
  hit : (∃ p, Named s pid p) → ∃ p, Named s pid p ∧ (kill s pid).2 = killed s p
  miss : (¬∃ p, Named s pid p) → kill s pid = (-1, s)

/-- No unused slot still carries the pid. -/
def NoStale (s : Table) (pid : Int) : Prop := ∀ p, (s.slots p).state = .unused → (s.slots p).pid ≠ pid

theorem kill_cases (s : Table) (pid : Int) :
    (∃ p, (s.slots p).pid = pid ∧ kill s pid = (0, killed s p)) ∨
      (∀ p, (s.slots p).pid ≠ pid) ∧ kill s pid = (-1, s) := by
  unfold kill
  cases h : (List.finRange NPROC).find? fun p => (s.slots p).pid = pid with
  | some p => exact .inl ⟨p, by simpa using List.find?_some h, rfl⟩
  | none =>
      refine .inr ⟨fun p => ?_, rfl⟩
      simpa using List.find?_eq_none.mp h p (List.mem_finRange p)

theorem killOk_of_noStale {s : Table} {pid : Int} (hn : NoStale s pid) : KillOk s pid := by
  rcases kill_cases s pid with ⟨p, hp, hk⟩ | ⟨hp, hk⟩
  · have hnamed : Named s pid p := ⟨fun e => hn p e hp, hp⟩
    refine ⟨?_, fun _ => ⟨p, hnamed, by rw [hk]⟩, fun h => absurd ⟨p, hnamed⟩ h⟩
    rw [hk]
    exact ⟨fun _ => ⟨p, hnamed⟩, fun _ => rfl⟩
  · have hnone : ¬∃ p, Named s pid p := fun ⟨p, h⟩ => hp p h.2
    refine ⟨?_, fun h => absurd h hnone, fun _ => hk⟩
    rw [hk]
    refine ⟨fun h => ?_, fun h => absurd h hnone⟩
    cases h

/-- A stale pid is found although no process in use has it. -/
theorem noStale_of_killOk {s : Table} {t : List Event} {pid : Int} (hp : Pids s t) (hk : KillOk s pid) :
    NoStale s pid := by
  intro p hu hpid
  have h₀ : (kill s pid).1 = 0 := by
    rcases kill_cases s pid with ⟨_, _, h⟩ | ⟨h, _⟩
    · rw [h]
    · exact absurd hpid (h p)
  obtain ⟨q, hq, hq'⟩ := hk.found.mp h₀
  have hpos := hp.pos q hq
  have e : q = p := hp.inj q p (hq'.trans hpid.symm) (ne_of_gt hpos)
  exact hq (e ▸ hu)

/-- The kills of a run name no unused slot. -/
def Aimed (s : Table) : Action → Prop
  | .kill pid => NoStale s pid
  | _ => True

/-- Slots that fork can take are not killed, nor is an embryo, which belongs to the process
that runs. -/
structure Unkilled (s : Table) : Prop where
  unused : ∀ p, (s.slots p).state = .unused → (s.slots p).killed = false
  embryo : ∀ np, (s.slots np).state = .embryo → (s.slots np).killed = false ∧
    ∃ p, s.proc = some p ∧ (s.pc p = .embryo np ∨ s.pc p = .stacked np ∨ s.pc p = .copied np)

theorem Unkilled.keep {s s' : Table} (h : Unkilled s) (hs : Shuffled s s')
    (hk : ∀ p, (s.slots p).state = .unused ∨ (s.slots p).state = .embryo →
      (s'.slots p).killed = (s.slots p).killed)
    (he : ∀ np, (s.slots np).state = .embryo → s'.proc = s.proc ∧ s'.pc = s.pc) : Unkilled s' where
  unused p hp := by
    have hp' := (hs.idle (by simp [Active])).mp hp
    rw [hk p (.inl hp')]
    exact h.unused p hp'
  embryo np hp := by
    have hp' := (hs.idle (by simp [Active])).mp hp
    obtain ⟨h₁, h₂⟩ := h.embryo np hp'
    obtain ⟨e₁, e₂⟩ := he np hp'
    rw [hk np (.inr hp'), e₁, e₂]
    exact ⟨h₁, h₂⟩

theorem Unkilled.no_embryo {s : Table} (h : Unkilled s) {p : Fin NPROC} (hp : s.proc = some p)
    (hc : s.pc p = .other ∨ s.pc p = .exiting ∨ s.pc p = .waiting) (np : Fin NPROC) :
    (s.slots np).state ≠ .embryo := by
  intro e
  obtain ⟨-, q, hq, hqc⟩ := h.embryo np e
  rw [hp] at hq
  cases hq
  have hn := not_forking_of hc np
  rcases hqc with hqc | hqc | hqc
  · exact hn.1 hqc
  · exact hn.2.1 hqc
  · exact hn.2.2 hqc

theorem killed_wakeup1 (s : Table) (ch : Chan) (p : Fin NPROC) :
    ((wakeup1 s ch).slots p).killed = (s.slots p).killed := by
  unfold wakeup1
  dsimp only
  split <;> rfl

theorem unkilled_wakeup1 {s : Table} (h : Unkilled s) (ch : Chan) : Unkilled (wakeup1 s ch) :=
  h.keep (shuffled_wakeup1 s ch) (fun p _ => killed_wakeup1 s ch p) fun _ _ => ⟨rfl, rfl⟩

theorem unkilled_scheduler {s s' : Table} {p : Fin NPROC} (h : Unkilled s) (hs : scheduler s p = some s') :
    Unkilled s' := by
  have hsh := shuffled_scheduler hs
  unfold scheduler at hs
  split at hs
  case isFalse => cases hs
  case isTrue hc =>
      cases hs
      refine h.keep hsh (fun q _ => ?_) fun np he => ?_
      · by_cases e : q = p <;> simp [e]
      · obtain ⟨-, q, hq, -⟩ := h.embryo np he
        rw [hc.1] at hq
        cases hq

/-- A process outside fork changes its own slot, but not whether it is killed. -/
theorem unkilled_own {s s' : Table} {p : Fin NPROC} (h : Unkilled s) (hp : s.proc = some p)
    (hc : s.pc p = .other ∨ s.pc p = .exiting ∨ s.pc p = .waiting) (hs : Shuffled s s')
    (hk : ∀ q, (s'.slots q).killed = (s.slots q).killed) : Unkilled s' :=
  h.keep hs (fun q _ => hk q) fun np he => absurd he (h.no_embryo hp hc np)

theorem unkilled_sleep {s s' : Table} {p : Fin NPROC} (h : Unkilled s) (hf : Family s) (hp : s.proc = some p)
    (hc : s.pc p = .other ∨ s.pc p = .exiting ∨ s.pc p = .waiting) (ch : Chan)
    (hs : s'.slots = (sleep s p ch).slots) (hi : s'.initproc = s.initproc) (hn : s'.nextpid = s.nextpid) :
    Unkilled s' := by
  refine unkilled_own h hp hc ((shuffled_sleep hf hp ch).of_slots hs hi hn) fun q => ?_
  rw [hs]
  unfold sleep
  by_cases e : q = p <;> simp [e]

theorem unkilled_kill {s : Table} {p : Fin NPROC} {pid : Int} (h : Unkilled s) (hp : s.proc = some p)
    (hc : s.pc p = .other) (hn : NoStale s pid) : Unkilled (kill s pid).2 := by
  refine h.keep (shuffled_kill s pid) (fun q hq => ?_) fun np he => absurd he (h.no_embryo hp (.inl hc) np)
  rcases kill_cases s pid with ⟨r, hr, hk⟩ | ⟨_, hk⟩ <;> rw [hk]
  change ((killed s r).slots q).killed = _
  unfold killed
  rw [slots_setSlot, if_neg]
  rintro rfl
  exact hq.elim (fun e => hn q e hr) (h.no_embryo hp (.inl hc) q)

theorem unkilled_allocproc {s s' : Table} {p np : Fin NPROC} (h : Unkilled s) (hp : s.proc = some p)
    (hc : s.pc p = .other) (ha : allocproc s = some (np, s')) : Unkilled (setPc s' p (.embryo np)) := by
  obtain ⟨hu, rfl⟩ := allocproc_eq ha
  have hkill := h.unused np hu
  refine ⟨fun q hq => ?_, fun q hq => ?_⟩
  · by_cases e : q = np
    · simp [e] at hq
    · simp only [slots_setPc, slots_setSlot, e, if_false] at hq ⊢
      exact h.unused q hq
  · by_cases e : q = np
    · subst e
      exact ⟨by simpa using hkill, p, hp, .inl (by simp)⟩
    · simp only [slots_setPc, slots_setSlot, e, if_false] at hq
      exact absurd hq (h.no_embryo hp (.inl hc) q)

theorem Unkilled.embryo_eq {s : Table} {p np q : Fin NPROC} (h : Unkilled s) (hp : s.proc = some p)
    (hc : s.pc p = .embryo np ∨ s.pc p = .stacked np ∨ s.pc p = .copied np)
    (hq : (s.slots q).state = .embryo) : q = np := by
  obtain ⟨-, r, hr, hrc⟩ := h.embryo q hq
  rw [hp] at hr
  cases hr
  rcases hc with hc | hc | hc <;> rw [hc] at hrc <;> simp at hrc <;> exact hrc.symm

/-- A step of fork on its embryo np, which ends unused, runnable, or an embryo again. -/
theorem unkilled_fork {s s' : Table} {p np : Fin NPROC} {x : Slot} (h : Unkilled s) (hp : s.proc = some p)
    (hc : s.pc p = .embryo np ∨ s.pc p = .stacked np ∨ s.pc p = .copied np)
    (he : (s.slots np).state = .embryo) (hx : x.killed = (s.slots np).killed)
    (hs : s'.slots = Function.update s.slots np x) (hp' : s'.proc = s.proc)
    (hc' : x.state = .embryo → s'.pc p = .embryo np ∨ s'.pc p = .stacked np ∨ s'.pc p = .copied np) :
    Unkilled s' := by
  have hkill := (h.embryo np he).1
  refine ⟨fun q hq => ?_, fun q hq => ?_⟩
  · rw [hs] at hq ⊢
    by_cases e : q = np
    · rw [e, Function.update_self, hx]; exact hkill
    · rw [Function.update_of_ne e] at hq ⊢; exact h.unused q hq
  · rw [hs] at hq ⊢
    by_cases e : q = np
    · subst e
      rw [Function.update_self] at hq ⊢
      exact ⟨hx.trans hkill, p, hp'.trans hp, hc' hq⟩
    · rw [Function.update_of_ne e] at hq
      exact absurd (h.embryo_eq hp hc hq) e

theorem unkilled_reap {s : Table} {p q : Fin NPROC} (h : Unkilled s) (hp : s.proc = some p)
    (hc : s.pc p = .other ∨ s.pc p = .waiting) : Unkilled (wait.reap s p q) := by
  refine ⟨fun r hr => ?_, fun r hr => ?_⟩
  · by_cases e : r = q
    · simp [wait.reap, e]
    · simp only [wait.reap, slots_setPc, slots_setSlot, e, if_false] at hr ⊢
      exact h.unused r hr
  · by_cases e : r = q
    · simp [wait.reap, e] at hr
    · simp only [wait.reap, slots_setPc, slots_setSlot, e, if_false] at hr
      exact absurd hr (h.no_embryo hp (hc.imp_right .inr) r)

theorem killed_finish (s : Table) (p q : Fin NPROC) :
    ((exit.finish s p).slots q).killed = (s.slots q).killed := by
  have hw : ∀ r, ((exit.wakeParent s p).slots r).killed = (s.slots r).killed := by
    intro r
    unfold exit.wakeParent
    split
    case h_1 => exact killed_wakeup1 ..
    case h_2 => rfl
  have hr : ∀ r, ((exit.reparent (exit.wakeParent s p) p).slots r).killed = (s.slots r).killed := by
    intro r
    rw [← hw r]
    unfold exit.reparent
    dsimp only
    split <;> rfl
  have hz : ∀ u : Table, (∀ r, (u.slots r).killed = (s.slots r).killed) →
      ((setSlot u p { u.slots p with state := .zombie }).slots q).killed = (s.slots q).killed := by
    intro u hu
    by_cases e : q = p
    · subst e; simpa using hu q
    · simpa [e] using hu q
  obtain ⟨u, hu, rfl | rfl⟩ := finish_eq s p
  · rw [hu]; exact hz _ hr
  · rw [hu]; exact hz _ fun r => (killed_wakeup1 ..).trans (hr r)

theorem unkilled_finish {s : Table} {p : Fin NPROC} (h : Unkilled s) (hf : Family s) (hp : s.proc = some p)
    (hc : s.pc p = .exiting) : Unkilled (exit.finish s p) := by
  obtain ⟨u, hu, -, -, -, -, -, -, -, hst⟩ := before_zombie hf hp hc
  -- the slot itself becomes a zombie; the others keep their kind
  have hidle : ∀ q x, x = .unused ∨ x = .embryo → ((exit.finish s p).slots q).state = x → (s.slots q).state = x := by
    intro q x hx hq
    rw [hu] at hq
    by_cases e : q = p
    · simp only [e, slots_setSlot, if_true] at hq
      rcases hx with rfl | rfl <;> cases hq
    · simp only [e, slots_setSlot, if_false] at hq
      exact (hst q x (by rcases hx with rfl | rfl <;> exact id)).mp hq
  refine ⟨fun q hq => ?_, fun q hq => ?_⟩
  · rw [killed_finish]
    exact h.unused q (hidle q _ (.inl rfl) hq)
  · exact absurd (hidle q _ (.inr rfl) hq) (h.no_embryo hp (.inr (.inl hc)) q)

theorem unkilled_act {s s' : Table} {p : Fin NPROC} {a : Action} {e : List Event} (h : Unkilled s)
    (hf : Family s) (hp : s.proc = some p) (ha : Aimed s a) (hs : act s p a = some (s', e)) : Unkilled s' := by
  cases a with
  | scheduler _ | wakeup _ => cases hs
  | yield =>
      simp only [act, Option.ite_none_right_eq_some, Option.some.injEq, Prod.mk.injEq] at hs
      obtain ⟨hc, rfl, rfl⟩ := hs
      refine unkilled_own h hp (.inl hc) ((shuffled_yield hf hp).of_slots rfl rfl rfl) fun q => ?_
      unfold yield
      by_cases e : q = p <;> simp [e]
  | sleep ch =>
      simp only [act, Option.ite_none_right_eq_some, Option.some.injEq, Prod.mk.injEq] at hs
      obtain ⟨hc, rfl, rfl⟩ := hs
      exact unkilled_sleep h hf hp (hc.imp_right .inl) _ rfl rfl rfl
  | kill pid =>
      simp only [act, Option.ite_none_right_eq_some, Option.some.injEq, Prod.mk.injEq] at hs
      obtain ⟨hc, rfl, rfl⟩ := hs
      exact unkilled_kill h hp hc ha
  | fork =>
      simp only [act, Option.ite_none_right_eq_some] at hs
      obtain ⟨hc, hs⟩ := hs
      cases hal : allocproc s with
      | none =>
          rw [hal] at hs
          cases hs
          exact h
      | some r =>
          rw [hal] at hs
          cases hs
          exact unkilled_allocproc h hp hc hal
  | kalloc ok =>
      simp only [act] at hs
      split at hs
      case h_1 np hc =>
          cases hs
          have he := hf.embryo (.inl hc)
          split
          case isTrue =>
              exact unkilled_fork (x := s.slots np) h hp (.inl hc) he rfl (by simp) rfl
                fun _ => .inr (.inl (by simp))
          case isFalse =>
              exact unkilled_fork (x := { s.slots np with state := .unused }) h hp (.inl hc) he rfl rfl rfl
                (fun e => by cases e)
      case h_2 => cases hs
  | copyuvm ok =>
      simp only [act] at hs
      split at hs
      case h_1 np hc =>
          cases hs
          have he := hf.embryo (.inr (.inl hc))
          split
          case isTrue =>
              exact unkilled_fork (x := { s.slots np with parent := some p }) h hp (.inr (.inl hc)) he rfl rfl rfl
                fun _ => .inr (.inr (by simp [fork.copy]))
          case isFalse =>
              exact unkilled_fork (x := { s.slots np with state := .unused }) h hp (.inr (.inl hc)) he rfl rfl rfl
                (fun e => by cases e)
      case h_2 => cases hs
  | ready =>
      simp only [act] at hs
      split at hs
      case h_1 np hc =>
          cases hs
          exact unkilled_fork (x := { s.slots np with state := .runnable }) h hp (.inr (.inr hc))
            (hf.embryo (.inr (.inr hc))) rfl rfl rfl (fun e => by cases e)
      case h_2 => cases hs
  | exit =>
      simp only [act, Option.ite_none_right_eq_some, Option.some.injEq, Prod.mk.injEq] at hs
      obtain ⟨⟨hc, -⟩, rfl, rfl⟩ := hs
      exact unkilled_own h hp (.inl hc) ((Shuffled.refl s).of_slots rfl rfl rfl) fun _ => rfl
  | finish =>
      simp only [act, Option.ite_none_right_eq_some, Option.some.injEq, Prod.mk.injEq] at hs
      obtain ⟨hc, rfl, rfl⟩ := hs
      exact unkilled_finish h hf hp hc
  | wait =>
      simp only [act, Option.ite_none_right_eq_some, Option.some.injEq] at hs
      obtain ⟨hc, hs⟩ := hs
      have hc' := hc.imp_right (Or.inr (a := s.pc p = .exiting))
      unfold wait at hs
      split at hs
      case h_1 q hq =>
          cases hs
          exact unkilled_reap h hp hc
      case h_2 =>
          split at hs
          case isTrue =>
              cases hs
              exact unkilled_own h hp hc' ((Shuffled.refl s).of_slots rfl rfl rfl) fun _ => rfl
          case isFalse =>
              cases hs
              exact unkilled_sleep h hf hp hc' _ rfl rfl rfl

theorem Reaches.unkilled {s : Table} {t : List Event} (h : Reaches Aimed s t) : Unkilled s := by
  induction h with
  | start => exact ⟨by decide, by decide⟩
  | step h ha hs ih =>
      obtain ⟨p, rfl, hs', rfl⟩ | ⟨ch, rfl, rfl, rfl⟩ | ⟨p, hp, hs'⟩ := step_cases hs
      · exact unkilled_scheduler ih hs'
      · exact unkilled_wakeup1 ih ch
      · exact unkilled_act ih (Reaches.family h) hp ha hs'

/-- The step in which fork returns the pid of its child. -/
theorem fork_event {s s' : Table} {a : Action} {e : List Event} {parent child : Fin NPROC} {pid : Int}
    (h : step s a = some (s', e)) (hm : .fork parent child pid ∈ e) :
    a = .ready ∧ s.pc parent = .copied child ∧ s' = fork.ready s parent child := by
  obtain ⟨p, rfl, hs, rfl⟩ | ⟨ch, rfl, rfl, rfl⟩ | ⟨p, hp, hs⟩ := step_cases h
  · cases hm
  · cases hm
  · cases a with
    | scheduler _ | wakeup _ => cases hs
    | yield | sleep _ | kill _ | exit | finish =>
        simp only [act, Option.ite_none_right_eq_some, Option.some.injEq, Prod.mk.injEq] at hs
        obtain ⟨-, -, rfl⟩ := hs
        simp at hm
    | fork =>
        simp only [act, Option.ite_none_right_eq_some] at hs
        obtain ⟨-, hs⟩ := hs
        split at hs <;> cases hs <;> simp at hm
    | kalloc _ | copyuvm _ =>
        simp only [act] at hs
        split at hs <;> cases hs
        simp at hm
    | ready =>
        simp only [act] at hs
        split at hs
        case h_1 np hc =>
            cases hs
            simp only [List.mem_singleton, Event.fork.injEq] at hm
            obtain ⟨rfl, rfl, rfl⟩ := hm
            exact ⟨rfl, hc, rfl⟩
        case h_2 => cases hs
    | wait =>
        simp only [act, Option.ite_none_right_eq_some, Option.some.injEq] at hs
        obtain ⟨-, hs⟩ := hs
        unfold wait at hs
        split at hs
        case h_1 => cases hs; simp at hm
        case h_2 => split at hs <;> cases hs <;> cases hm

/-- kill does what it should exactly when no unused slot carries the pid, and a run whose
kills all meet that condition starts every child without killed. -/
theorem kill_reaches_live (s : Table) (t : List Event) :
    (Reaches (fun _ _ => True) s t → ∀ pid,
      (NoStale s pid → KillOk s pid) ∧ (allocs t < 2 ^ 31 - 1 → KillOk s pid → NoStale s pid)) ∧
    (Reaches Aimed s t → ∀ a s' e parent child pid, step s a = some (s', e) →
      .fork parent child pid ∈ e → (s'.slots child).killed = false) := by
  refine ⟨fun h pid => ⟨killOk_of_noStale, fun hb => noStale_of_killOk (Reaches.pids h hb)⟩, ?_⟩
  intro h a s' e parent child pid hs hm
  obtain ⟨-, hc, rfl⟩ := fork_event hs hm
  have hk := ((Reaches.unkilled h).embryo child ((Reaches.family h).embryo (.inr (.inr hc)))).1
  simpa [fork.ready] using hk

/-- The table when init runs for the first time. -/
def initRuns : Table := (scheduler userinit 0).getD userinit

/-- init kills itself, which leaves its first child alone. -/
theorem kill_reaches_live_first_child : KillOk initRuns 1 ∧ ∃ s t s' e,
    Reaches Aimed s t ∧ step s .ready = some (s', e) ∧ .fork 0 1 2 ∈ e ∧ (s'.slots 1).killed = false := by
  have hn : NoStale initRuns 1 := by unfold NoStale; decide +kernel
  have h₀ : Reaches Aimed initRuns [.alloc 1] :=
    Reaches.start.step (a := .scheduler 0) (e := []) trivial rfl
  have h₁ := h₀.step (a := .kill 1) hn rfl
  have h₂ := h₁.step (a := .fork) trivial rfl
  have h₃ := h₂.step (a := .kalloc true) trivial rfl
  have h₄ := h₃.step (a := .copyuvm true) trivial rfl
  refine ⟨((kill_reaches_live initRuns [.alloc 1]).1
    (Reaches.start.step (a := .scheduler 0) (e := []) trivial rfl) 1).1 hn, _, _, _, _, h₄, rfl, ?_, ?_⟩
  · exact List.mem_singleton.mpr rfl
  · exact (kill_reaches_live _ _).2 h₄ .ready _ _ 0 1 2 rfl (List.mem_singleton.mpr rfl)

/-- No process has pid 0, but kill(0) finds the unused slot 1, and the next child of init is
killed before it runs. -/
theorem kill_zero_hits_unused :
    Reaches (fun _ _ => True) initRuns [.alloc 1] ∧ ¬KillOk initRuns 0 ∧
      ∃ s e, run initRuns [.kill 0, .fork, .kalloc true, .copyuvm true, .ready] = some (s, e) ∧
        .fork 0 1 2 ∈ e ∧ (s.slots 1).killed = true := by
  refine ⟨Reaches.start.step (a := .scheduler 0) (e := []) trivial rfl, fun h => ?_, ?_⟩
  · exact absurd (h.found.mp (by decide +kernel)) (by decide +kernel)
  · have hr : (run initRuns [.kill 0, .fork, .kalloc true, .copyuvm true, .ready]).map
        (fun r => (r.2, (r.1.slots 1).killed)) = some ([.alloc 2, .fork 0 1 2], true) := by decide +kernel
    obtain ⟨⟨s, e⟩, hr, h⟩ := Option.map_eq_some_iff.mp hr
    simp only [Prod.mk.injEq] at h
    exact ⟨s, e, hr, by rw [h.1]; simp, h.2⟩

end ArmXv6.Kill
