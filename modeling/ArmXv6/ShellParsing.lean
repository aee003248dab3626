import ArmXv6.ShellGrammar

namespace ArmXv6.ShellParsing

open ShellParser ShellGrammar

variable {b : Nat → UInt8} {es s s' n : Nat} {t w : Tok} {ts ts' u v ws ws' amps : List Tok}
  {rs rs' : List Redir} {c : Cmd}

theorem leads_redir {k : UInt8} : leads [60, 62] k = true ↔ k = 60 ∨ k = 62 ∨ k = 43 := by
  simp [leads, or_assoc]

theorem leads_one {k a : UInt8} (ha : a ≠ 62) : leads [a] k = true ↔ k = a := by
  simp [leads, Ne.symm ha]

theorem leads_stop {k : UInt8} : leads [124, 41, 38, 59] k = true ↔ k = 124 ∨ k = 41 ∨ k = 38 ∨ k = 59 := by
  simp [leads]

theorem wrap_append (c : Cmd) (rs rs' : List Redir) : wrap c (rs ++ rs') = wrap (wrap c rs) rs' := List.foldl_append

theorem wrap_cons (c : Cmd) (r : Redir) (rs : List Redir) :
    wrap c (r :: rs) = wrap (.redir c r.file r.efile r.mode r.fd) rs := rfl

theorem store_wrap (i : Nat) (q : Option Nat) (e : Nat) (c : Cmd) (rs : List Redir) :
    (wrap c rs).store i q e = (c.store i q e).map (wrap · rs) := by
  induction rs generalizing c with
  | nil => cases hc : c.store i q e <;> simp [wrap, hc, Except.map]
  | cons r rs ih =>
      rw [wrap_cons, ih, Cmd.store]
      cases c.store i q e <;> rfl

theorem set_first_free {α : Type} (l : List α) (k : Nat) (d x : α) :
    (l ++ List.replicate (k + 1) d).set l.length x = (l ++ [x]) ++ List.replicate k d := by
  rw [List.set_append_right _ _ (Nat.le_refl _), Nat.sub_self, List.replicate_succ, List.set_cons_zero,
    List.append_assoc,
    List.singleton_append]

theorem store_word (hlt : ws.length < MAXARGS) :
    (execOf ws).store ws.length (some w.q) w.eq = .ok (execOf (ws ++ [w])) := by
  obtain ⟨k, hk⟩ : ∃ k, MAXARGS - ws.length = k + 1 := ⟨MAXARGS - ws.length - 1, by omega⟩
  have hk' : MAXARGS - (ws ++ [w]).length = k := by
    rw [List.length_append, List.length_singleton]
    omega
  rw [execOf, Cmd.store, if_pos hlt, execOf, hk, hk', List.map_append, List.map_append]
  have h₁ := set_first_free (ws.map fun t => some t.q) k none (some w.q)
  have h₂ := set_first_free (ws.map fun t => t.eq) k 0 w.eq
  rw [List.length_map] at h₁ h₂
  rw [h₁, h₂]
  rfl

theorem store_end (hlt : ws.length < MAXARGS) : (execOf ws).store ws.length none 0 = .ok (execOf ws) := by
  obtain ⟨k, hk⟩ : ∃ k, MAXARGS - ws.length = k + 1 := ⟨MAXARGS - ws.length - 1, by omega⟩
  rw [execOf, Cmd.store, if_pos hlt, hk]
  have h₁ := set_first_free (ws.map fun t => some t.q) k none none
  have h₂ := set_first_free (ws.map fun t => t.eq) k 0 0
  rw [List.length_map] at h₁ h₂
  rw [h₁, h₂, List.append_assoc, List.append_assoc]
  rfl

/-- The texts of the panics. -/
def messages : List String := ["syntax", "syntax - missing )", "missing file for redirection", "too many args"]

/-- Nothing that parseredirs would take. -/
def NoRedir (ts : List Tok) : Prop := seen [60, 62] ts = false

theorem subset_redir : ([60, 62] : List UInt8) ⊆ symbols := by decide

theorem cell_eq {op file : Tok} (hop : IsRedir op) :
    (if op.kind = 60 then Cmd.redir c file.q file.eq O_RDONLY 0
      else if op.kind = 62 then .redir c file.q file.eq (O_WRONLY ||| O_CREATE) 1
      else if op.kind = 43 then .redir c file.q file.eq (O_WRONLY ||| O_CREATE) 1 else c) =
        wrap c [redirOf op file] := by
  rcases hop with hk | hk | hk <;> simp [hk, wrap, redirOf]

theorem parseredirs_outcome (hb : Terminated b es) (h : Reads b es s ts) (hn : ts.length < n) :
    (∃ u rs ts' s', ts = u ++ ts' ∧ Redirs u rs ∧ Reads b es s' ts' ∧ parseredirs b es n c s = .ok (wrap c rs, s')) ∨
      ∃ msg, msg ∈ messages ∧ parseredirs b es n c s = .error (.panic msg) := by
  induction n generalizing s ts c with
  | zero => omega
  | succ n ih =>
      obtain ⟨s₁, hpeek, h₁⟩ := h.peek hb subset_redir
      rw [parseredirs]
      simp only [hpeek]
      cases hseen : seen [60, 62] ts with
      | false => exact .inl ⟨[], [], ts, s₁, rfl, .nil, h₁, rfl⟩
      | true =>
          simp only [if_true]
          cases ts with
          | nil => cases hseen
          | cons op rest =>
              obtain ⟨s₂, htok, h₂, -⟩ := h₁.token hb
              simp only [htok]
              cases rest with
              | nil =>
                  obtain ⟨q, e, s₃, hend, -⟩ := h₂.nothing hb
                  simp only [hend]
                  exact .inr ⟨"missing file for redirection", by decide, rfl⟩
              | cons file rest =>
                  obtain ⟨s₃, hfile, h₃, -⟩ := h₂.token hb
                  simp only [hfile]
                  by_cases hw : file.kind = 97
                  · rw [if_neg (not_not_intro hw)]
                    have hop : IsRedir op := leads_redir.mp hseen
                    rw [cell_eq hop]
                    simp only [List.length_cons] at hn
                    rcases ih (c := wrap c [redirOf op file]) h₃ (by omega) with ⟨u, rs, ts', s', rfl, hu, hs',
                      hrun⟩ | ⟨msg, hm, hrun⟩
                    · exact .inl ⟨op :: file :: u, redirOf op file :: rs, ts', s', rfl, .cons hop hw hu, hs', hrun⟩
                    · exact .inr ⟨msg, hm, hrun⟩
                  · rw [if_pos hw]
                    exact .inr ⟨"missing file for redirection", by decide, rfl⟩

theorem parseredirs_complete (hb : Terminated b es) (hu : Redirs u rs) (hstop : NoRedir ts')
    (h : Reads b es s (u ++ ts')) (hn : u.length < n) :
    ∃ s', parseredirs b es n c s = .ok (wrap c rs, s') ∧ Reads b es s' ts' := by
  induction hu generalizing s n c with
  | nil =>
      obtain ⟨n, rfl⟩ : ∃ k, n = k + 1 := ⟨n - 1, by omega⟩
      rw [List.nil_append] at h
      obtain ⟨s₁, hpeek, h₁⟩ := h.peek hb subset_redir
      refine ⟨s₁, ?_, h₁⟩
      unfold NoRedir at hstop
      rw [parseredirs]
      simp only [hpeek, hstop]
      rfl
  | @cons op file u rs hop hw hu ih =>
      simp only [List.length_cons] at hn
      obtain ⟨n, rfl⟩ : ∃ k, n = k + 1 := ⟨n - 1, by omega⟩
      rw [List.cons_append, List.cons_append] at h
      obtain ⟨s₁, hpeek, h₁⟩ := h.peek hb subset_redir
      obtain ⟨s₂, htok, h₂, -⟩ := h₁.token hb
      obtain ⟨s₃, hfile, h₃, -⟩ := h₂.token hb
      obtain ⟨s', hrun, hs'⟩ := ih (n := n) (c := wrap c [redirOf op file]) h₃ (by omega)
      refine ⟨s', ?_, hs'⟩
      have hseen : seen [60, 62] (op :: file :: (u ++ ts')) = true := leads_redir.mpr hop
      rw [parseredirs]
      simp only [hpeek, hseen, if_true, htok, hfile]
      rw [if_neg (not_not_intro hw), cell_eq hop, hrun]
      rfl

/-- The tokens that may follow a simple command. -/
def EndsExec (ts : List Tok) : Prop := ∀ t rest, ts = t :: rest → t.kind = 124 ∨ t.kind = 41 ∨ t.kind = 38 ∨ t.kind = 59

theorem subset_stop : ([124, 41, 38, 59] : List UInt8) ⊆ symbols := by decide

theorem EndsExec.noRedir (h : EndsExec ts) : NoRedir ts := by
  unfold NoRedir
  cases ts with
  | nil => rfl
  | cons t rest =>
      refine Bool.eq_false_iff.mpr fun hr => ?_
      rcases h t rest rfl with hk | hk | hk | hk <;> rcases leads_redir.mp hr with hr | hr | hr <;> rw [hk] at hr
        <;> cases hr

theorem noRedir_words (hw : Words v ws rs) (h : NoRedir ts) : NoRedir (v ++ ts) := by
  cases hw with
  | nil => exact h
  | @cons w u v ws rs rs' hk hr hrest =>
      refine Bool.eq_false_iff.mpr fun hl => ?_
      rcases leads_redir.mp hl with hl | hl | hl <;> rw [hk] at hl <;> cases hl

/-- The loop of parseexec takes the words that come next with their redirections, or panics. -/
theorem parseexec_outcome (ws : List Tok) (rs : List Redir) (hb : Terminated b es) (h : Reads b es s ts)
    (hn : ts.length < n) (hlt : ws.length < MAXARGS) :
    (∃ v ws' rs' ts' s', ts = v ++ ts' ∧ Words v ws' rs' ∧ (ws ++ ws').length < MAXARGS ∧ Reads b es s' ts' ∧
        parseexec.loop b es n ws.length (wrap (execOf ws) rs) s = .ok (wrap (execOf (ws ++ ws')) (rs ++ rs'), s')) ∨
      ∃ msg, msg ∈ messages ∧ parseexec.loop b es n ws.length (wrap (execOf ws) rs) s = .error (.panic msg) := by
  induction n generalizing s ts ws rs with
  | zero => omega
  | succ n ih =>
      obtain ⟨s₁, hpeek, h₁⟩ := h.peek hb subset_stop
      have hend : ∀ s', Reads b es s' ts →
          (∃ v ws' rs' ts' s'', ts = v ++ ts' ∧ Words v ws' rs' ∧ (ws ++ ws').length < MAXARGS ∧
          Reads b es s'' ts' ∧ ((wrap (execOf ws) rs).store ws.length none 0).map (·, s') =
            .ok (wrap (execOf (ws ++ ws')) (rs ++ rs'), s'')) :=
        fun s' hs' => ⟨[], [], [], ts, s', rfl, .nil, by rwa [List.append_nil], hs', by
          rw [store_wrap, store_end hlt, List.append_nil, List.append_nil]
          rfl⟩
      rw [parseexec.loop]
      simp only [hpeek]
      cases hseen : seen [124, 41, 38, 59] ts with
      | true => exact .inl (hend s₁ h₁)
      | false =>
          simp only [Bool.false_eq_true, if_false]
          cases ts with
          | nil =>
              obtain ⟨q, e, s₂, hnone, h₂⟩ := h₁.nothing hb
              simp only [hnone]
              exact .inl (hend s₂ h₂)
          | cons w rest =>
              obtain ⟨s₂, htok, h₂, -, hne, -⟩ := h₁.token hb
              simp only [htok]
              rw [if_neg hne]
              by_cases hw : w.kind = 97
              · rw [if_neg (not_not_intro hw), store_wrap, store_word hlt]
                by_cases hmany : MAXARGS ≤ ws.length + 1
                · refine .inr ⟨"too many args", by decide, ?_⟩
                  simp only [Except.map, Except.bind, bind, hmany, if_true]
                · rw [List.length_cons] at hn
                  have hlen : (ws ++ [w]).length = ws.length + 1 := by rw [List.length_append, List.length_singleton]
                  simp only [Except.map, Except.bind, bind, hmany, if_false]
                  rcases parseredirs_outcome (c := wrap (execOf (ws ++ [w])) rs) hb h₂
                    (show rest.length < n by omega) with
                    ⟨u, rs₁, ts₁, s₃, rfl, hu, h₃, hrun⟩ | ⟨msg, hm, hrun⟩
                  · rw [hrun, ← wrap_append, ← hlen]
                    rw [List.length_append] at hn
                    rcases ih (ws ++ [w]) (rs ++ rs₁) h₃ (by omega) (by omega) with
                      ⟨v, ws', rs', ts', s', rfl, hv, hlt', hs', hrun'⟩ | ⟨msg, hm, hrun'⟩
                    · refine .inl ⟨w :: (u ++ v), w :: ws', rs₁ ++ rs', ts', s', by simp,
                        .cons hw hu hv, by simpa using hlt', hs', ?_⟩
                      simpa using hrun'
                    · exact .inr ⟨msg, hm, hrun'⟩
                  · rw [hrun]
                    exact .inr ⟨msg, hm, rfl⟩
              · rw [if_pos hw]
                exact .inr ⟨"syntax", by decide, rfl⟩

theorem EndsExec.stop (h : EndsExec ts) : ts = [] ∨ seen [124, 41, 38, 59] ts = true := by
  cases ts with
  | nil => exact .inl rfl
  | cons t rest => exact .inr (leads_stop.mpr (h t rest rfl))

theorem loop_end (hb : Terminated b es) (h : Reads b es s ts) (hend : EndsExec ts) (hlt : ws.length < MAXARGS) :
    ∃ s', parseexec.loop b es (n + 1) ws.length (wrap (execOf ws) rs) s = .ok (wrap (execOf ws) rs, s') ∧
      Reads b es s' ts := by
  obtain ⟨s₁, hpeek, h₁⟩ := h.peek hb subset_stop
  rw [parseexec.loop]
  simp only [hpeek]
  rcases hend.stop with rfl | hseen
  · obtain ⟨q, e, s₂, hnone, h₂⟩ := h₁.nothing hb
    refine ⟨s₂, ?_, h₂⟩
    simp only [seen, Bool.false_eq_true, if_false, hnone, if_true]
    rw [store_wrap, store_end hlt]
    rfl
  · refine ⟨s₁, ?_, h₁⟩
    simp only [hseen, if_true]
    rw [store_wrap, store_end hlt]
    rfl

theorem parseexec_complete (ws : List Tok) (rs : List Redir) (hb : Terminated b es) (hv : Words v ws' rs')
    (hend : EndsExec ts') (h : Reads b es s (v ++ ts'))
    (hn : v.length < n) (hlt : (ws ++ ws').length < MAXARGS) :
    ∃ s', parseexec.loop b es n ws.length (wrap (execOf ws) rs) s = .ok (wrap (execOf (ws ++ ws')) (rs ++ rs'), s') ∧
      Reads b es s' ts' := by
  induction hv generalizing s n ws rs with
  | nil =>
      obtain ⟨n, rfl⟩ : ∃ k, n = k + 1 := ⟨n - 1, by omega⟩
      rw [List.append_nil] at hlt
      rw [List.append_nil, List.append_nil]
      exact loop_end hb h hend hlt
  | @cons w u v ws₁ rs₁ rs₂ hw hu hv ih =>
      simp only [List.length_cons, List.length_append] at hn hlt
      obtain ⟨n, rfl⟩ : ∃ k, n = k + 1 := ⟨n - 1, by omega⟩
      rw [List.cons_append, List.append_assoc] at h
      obtain ⟨s₁, hpeek, h₁⟩ := h.peek hb subset_stop
      obtain ⟨s₂, htok, h₂, -, hne, -⟩ := h₁.token hb
      obtain ⟨s₃, hred, h₃⟩ :=
        parseredirs_complete (n := n) (c := wrap (execOf (ws ++ [w])) rs) hb hu
        (noRedir_words hv hend.noRedir) h₂ (by omega)
      have hlen : (ws ++ [w]).length = ws.length + 1 := by rw [List.length_append, List.length_singleton]
      obtain ⟨s', hrun, hs'⟩ := ih (n := n) (ws ++ [w]) (rs ++ rs₁) h₃ (by omega)
        (by simp only [List.length_append, List.length_singleton]; omega)
      refine ⟨s', ?_, hs'⟩
      have hseen : seen [124, 41, 38, 59] (w :: (u ++ (v ++ ts'))) = false := by
        refine Bool.eq_false_iff.mpr fun hl => ?_
        rcases leads_stop.mp hl with hl | hl | hl | hl <;> rw [hw] at hl <;> cases hl
      rw [parseexec.loop]
      simp only [hpeek, hseen, Bool.false_eq_true, if_false, htok]
      rw [if_neg hne, if_neg (not_not_intro hw), store_wrap, store_word (by omega)]
      have hfew : ¬MAXARGS ≤ ws.length + 1 := by omega
      simp only [Except.map, Except.bind, bind, hfew, if_false, hred, ← wrap_append]
      rw [← hlen, hrun]
      simp

theorem backs_succ (k : Nat) (c : Cmd) : backs (k + 1) c = backs k (.back c) := rfl

theorem subset_amp : ([38] : List UInt8) ⊆ symbols := by decide

theorem amps_outcome (hb : Terminated b es) (h : Reads b es s ts) (hn : ts.length < n) :
    ∃ amps ts' s', ts = amps ++ ts' ∧ (∀ t ∈ amps, t.kind = 38) ∧ Reads b es s' ts' ∧
      parseline.loop b es n c s = .ok (backs amps.length c, s') := by
  induction n generalizing s ts c with
  | zero => omega
  | succ n ih =>
      obtain ⟨s₁, hpeek, h₁⟩ := h.peek hb subset_amp
      rw [parseline.loop]
      simp only [hpeek]
      cases hseen : seen [38] ts with
      | false => exact ⟨[], ts, s₁, rfl, fun t ht => absurd ht List.not_mem_nil, h₁, rfl⟩
      | true =>
          cases ts with
          | nil => cases hseen
          | cons t rest =>
              have hk : t.kind = 38 := (leads_one (by decide)).mp hseen
              obtain ⟨s₂, htok, h₂, -⟩ := h₁.token hb
              rw [List.length_cons] at hn
              obtain ⟨amps, ts', s', rfl, ha, hs', hrun⟩ := ih (c := .back c) h₂ (by omega)
              refine ⟨t :: amps, ts', s', rfl, fun a hm => ?_, hs', ?_⟩
              · rcases List.mem_cons.mp hm with rfl | hm
                · exact hk
                · exact ha a hm
              · simp only [if_true, htok, hrun, List.length_cons, backs_succ]

theorem amps_complete (hb : Terminated b es) (ha : ∀ t ∈ amps, t.kind = 38) (hstop : seen [38] ts' = false)
    (h : Reads b es s (amps ++ ts'))
    (hn : amps.length < n) : ∃ s', parseline.loop b es n c s = .ok (backs amps.length c, s') ∧ Reads b es s' ts' := by
  induction amps generalizing s n c with
  | nil =>
      obtain ⟨n, rfl⟩ : ∃ k, n = k + 1 := ⟨n - 1, by omega⟩
      rw [List.nil_append] at h
      obtain ⟨s₁, hpeek, h₁⟩ := h.peek hb subset_amp
      refine ⟨s₁, ?_, h₁⟩
      rw [parseline.loop]
      simp only [hpeek, hstop, Bool.false_eq_true, if_false]
      rfl
  | cons t amps ih =>
      rw [List.length_cons] at hn
      obtain ⟨n, rfl⟩ : ∃ k, n = k + 1 := ⟨n - 1, by omega⟩
      rw [List.cons_append] at h
      obtain ⟨s₁, hpeek, h₁⟩ := h.peek hb subset_amp
      obtain ⟨s₂, htok, h₂, -⟩ := h₁.token hb
      obtain ⟨s', hrun, hs'⟩ := ih (n := n) (c := .back c) (fun a hm => ha a (List.mem_cons_of_mem _ hm)) h₂ (by omega)
      refine ⟨s', ?_, hs'⟩
      have hseen : seen [38] (t :: (amps ++ ts')) = true := (leads_one (by decide)).mpr (ha t List.mem_cons_self)
      rw [parseline.loop]
      simp only [hpeek, hseen, if_true, htok, hrun, List.length_cons, backs_succ]

/-- A parsing function reads a phrase of the given kind, or panics. -/
def Outcome (b : Nat → UInt8) (es : Nat) (R : List Tok → Cmd → Prop) (ts : List Tok) (r : Parse (Cmd × Nat)) : Prop :=
  (∃ c s' u ts', r = .ok (c, s') ∧ ts = u ++ ts' ∧ R u c ∧ Reads b es s' ts') ∨ ∃ msg, msg ∈ messages ∧
    r = .error (.panic msg)

theorem Outcome.ok {R : List Tok → Cmd → Prop} (hR : R u c) (h : Reads b es s' ts') :
    Outcome b es R (u ++ ts') (.ok (c, s')) :=
  .inl ⟨c, s', u, ts', rfl, rfl, hR, h⟩

theorem Outcome.panic {R : List Tok → Cmd → Prop} {msg : String} (hm : msg ∈ messages) :
    Outcome b es R ts (.error (.panic msg)) :=
  .inr ⟨msg, hm, rfl⟩

-- The four functions with so much fuel, on every input that is short enough for it.
def LineOutcome (b : Nat → UInt8) (es n : Nat) : Prop :=
  ∀ s ts, Reads b es s ts → 4 * ts.length + 4 ≤ n → Outcome b es Line ts (parseline b es n s)

def PipeOutcome (b : Nat → UInt8) (es n : Nat) : Prop :=
  ∀ s ts, Reads b es s ts → 4 * ts.length + 3 ≤ n → Outcome b es Pipe ts (parsepipe b es n s)

def ExecOutcome (b : Nat → UInt8) (es n : Nat) : Prop :=
  ∀ s ts, Reads b es s ts → 4 * ts.length + 2 ≤ n → Outcome b es Exec ts (parseexec b es n s)

def BlockOutcome (b : Nat → UInt8) (es n : Nat) : Prop :=
  ∀ s t ts, t.kind = 40 → Reads b es s (t :: ts) → 4 * (t :: ts).length + 1 ≤ n →
    Outcome b es Exec (t :: ts) (parseblock b es n s)

theorem line_outcome (hb : Terminated b es) (hp : PipeOutcome b es n) (hl : LineOutcome b es n) :
    LineOutcome b es (n + 1) := by
  intro s ts h hn
  rw [parseline]
  rcases hp s ts h (by omega) with ⟨c, s₁, u, ts₁, hrun, rfl, hu, h₁⟩ | ⟨msg, hm, hrun⟩
  · rw [List.length_append] at hn
    obtain ⟨amps, ts₂, s₂, rfl, ha, h₂, hamps⟩ := amps_outcome (c := c) hb h₁ (show ts₁.length < n by omega)
    rw [List.length_append] at hn
    obtain ⟨s₃, hpeek, h₃⟩ := h₂.peek hb (show ([59] : List UInt8) ⊆ symbols by decide)
    simp only [hrun, hamps, hpeek, Except.bind, bind]
    cases hseen : seen [59] ts₂ with
    | false =>
        rw [← List.append_assoc]
        exact .ok (.one hu ha) h₃
    | true =>
        cases ts₂ with
        | nil => cases hseen
        | cons semi rest =>
            have hk : semi.kind = 59 := (leads_one (by decide)).mp hseen
            obtain ⟨s₄, htok, h₄, -⟩ := h₃.token hb
            rw [List.length_cons] at hn
            simp only [if_true, htok]
            rcases hl s₄ rest h₄ (by omega) with ⟨d, s₅, v, ts₃, hrun', rfl, hv, h₅⟩ | ⟨msg, hm, hrun'⟩
            · simp only [hrun']
              have hsplit : u ++ (amps ++ semi :: (v ++ ts₃)) = (u ++ amps ++ semi :: v) ++ ts₃ := by simp
              rw [hsplit]
              exact .ok (.list hu ha hk hv) h₅
            · simp only [hrun']
              exact .panic hm
  · simp only [hrun, Except.bind, bind]
    exact .panic hm

theorem pipe_outcome (hb : Terminated b es) (he : ExecOutcome b es n) (hp : PipeOutcome b es n) :
    PipeOutcome b es (n + 1) := by
  intro s ts h hn
  rw [parsepipe]
  rcases he s ts h (by omega) with ⟨c, s₁, u, ts₁, hrun, rfl, hu, h₁⟩ | ⟨msg, hm, hrun⟩
  · rw [List.length_append] at hn
    obtain ⟨s₂, hpeek, h₂⟩ := h₁.peek hb (show ([124] : List UInt8) ⊆ symbols by decide)
    simp only [hrun, hpeek, Except.bind, bind]
    cases hseen : seen [124] ts₁ with
    | false => exact .ok (.one hu) h₂
    | true =>
        cases ts₁ with
        | nil => cases hseen
        | cons bar rest =>
            have hk : bar.kind = 124 := (leads_one (by decide)).mp hseen
            obtain ⟨s₃, htok, h₃, -⟩ := h₂.token hb
            rw [List.length_cons] at hn
            simp only [if_true, htok]
            rcases hp s₃ rest h₃ (by omega) with ⟨d, s₄, v, ts₂, hrun', rfl, hv, h₄⟩ | ⟨msg, hm, hrun'⟩
            · simp only [hrun']
              have hsplit : u ++ bar :: (v ++ ts₂) = (u ++ bar :: v) ++ ts₂ := by simp
              rw [hsplit]
              exact .ok (.pipe hu hk hv) h₄
            · simp only [hrun']
              exact .panic hm
  · simp only [hrun, Except.bind, bind]
    exact .panic hm

theorem block_outcome (hb : Terminated b es) (hl : LineOutcome b es n) : BlockOutcome b es (n + 1) := by
  intro s lp ts hk h hn
  obtain ⟨s₁, hpeek, h₁⟩ := h.peek hb (show ([40] : List UInt8) ⊆ symbols by decide)
  have hseen : seen [40] (lp :: ts) = true := (leads_one (by decide)).mpr hk
  obtain ⟨s₂, htok, h₂, -⟩ := h₁.token hb
  rw [List.length_cons] at hn
  rw [parseblock]
  simp only [hpeek, hseen, Bool.not_true, Bool.false_eq_true, if_false, htok, Except.bind, bind]
  rcases hl s₂ ts h₂ (by omega) with ⟨c, s₃, u, ts₁, hrun, rfl, hu, h₃⟩ | ⟨msg, hm, hrun⟩
  · obtain ⟨s₄, hpeek', h₄⟩ := h₃.peek hb (show ([41] : List UInt8) ⊆ symbols by decide)
    simp only [hrun, hpeek']
    cases hseen' : seen [41] ts₁ with
    | false => exact .panic (by decide)
    | true =>
        cases ts₁ with
        | nil => cases hseen'
        | cons rp rest =>
            have hr : rp.kind = 41 := (leads_one (by decide)).mp hseen'
            obtain ⟨s₅, htok', h₅, -⟩ := h₄.token hb
            rw [List.length_append, List.length_cons] at hn
            simp only [Bool.not_true, Bool.false_eq_true, if_false, htok']
            rcases parseredirs_outcome (c := c) hb h₅ (show rest.length < n by omega) with ⟨v, rs, ts', s', rfl, hv,
              hs', hrun'⟩ | ⟨msg, hm, hrun'⟩
            · rw [hrun']
              have hsplit : lp :: (u ++ rp :: (v ++ ts')) = (lp :: (u ++ rp :: v)) ++ ts' := by simp
              rw [hsplit]
              exact .ok (.block hk hu hr hv) hs'
            · rw [hrun']
              exact .panic hm
  · simp only [hrun]
    exact .panic hm

theorem exec_outcome (hb : Terminated b es) (hbl : BlockOutcome b es n) : ExecOutcome b es (n + 1) := by
  intro s ts h hn
  obtain ⟨s₁, hpeek, h₁⟩ := h.peek hb (show ([40] : List UInt8) ⊆ symbols by decide)
  rw [parseexec]
  simp only [hpeek]
  cases hseen : seen [40] ts with
  | true =>
      cases ts with
      | nil => cases hseen
      | cons lp rest => exact hbl s₁ lp rest ((leads_one (by decide)).mp hseen) h₁ (by omega)
  | false =>
      simp only [Bool.false_eq_true, if_false, Except.bind, bind]
      have hcell : execcmd = execOf [] := rfl
      rw [hcell]
      rcases parseredirs_outcome (c := execOf []) hb h₁ (show ts.length < n by omega) with ⟨u, rs, ts₁, s₂, rfl, hu,
        h₂, hrun⟩ | ⟨msg, hm, hrun⟩
      · simp only [hrun]
        rw [List.length_append] at hn
        rcases parseexec_outcome [] rs hb h₂ (show ts₁.length < n by omega) (by decide) with
          ⟨v, ws, rs', ts', s', rfl, hv, hlt, hs', hrun'⟩ | ⟨msg, hm, hrun'⟩
        · rw [List.length_nil] at hrun'
          rw [hrun', ← List.append_assoc]
          exact .ok (.simple hu hv hlt) hs'
        · rw [List.length_nil] at hrun'
          rw [hrun']
          exact .panic hm
      · simp only [hrun]
        exact .panic hm

/-- Every function reads its phrase or panics; there is fuel enough, and no store leaves argv. -/
theorem outcomes (hb : Terminated b es) (n : Nat) : LineOutcome b es n ∧ PipeOutcome b es n ∧ ExecOutcome b es n ∧
    BlockOutcome b es n := by
  induction n with
  | zero =>
      refine ⟨fun s ts _ hn => ?_, fun s ts _ hn => ?_, fun s ts _ hn => ?_, fun s t ts _ _ hn => ?_⟩ <;> omega
  | succ n ih =>
      obtain ⟨hl, hp, he, hbl⟩ := ih
      exact ⟨line_outcome hb hp hl, pipe_outcome hb he hp, exec_outcome hb hbl, block_outcome hb hl⟩

/-- The tokens that may follow a pipe, and a line. -/
def EndsPipe (ts : List Tok) : Prop := ∀ t rest, ts = t :: rest → t.kind = 41 ∨ t.kind = 38 ∨ t.kind = 59

def EndsLine (ts : List Tok) : Prop := ∀ t rest, ts = t :: rest → t.kind = 41

theorem EndsPipe.exec (h : EndsPipe ts) : EndsExec ts := fun t rest he => .inr (h t rest he)

theorem EndsLine.pipe (h : EndsLine ts) : EndsPipe ts := fun t rest he => .inl (h t rest he)

theorem seen_of_ends {a : UInt8} (ha : a ≠ 62) (h : ∀ t rest, ts = t :: rest → t.kind ≠ a) : seen [a] ts = false := by
  cases ts with
  | nil => rfl
  | cons t rest => exact Bool.eq_false_iff.mpr fun hl => h t rest rfl ((leads_one ha).mp hl)

-- The four functions with so much fuel, on every phrase of their kind that is followed by what may follow it.
def LineComplete (b : Nat → UInt8) (es n : Nat) : Prop :=
  ∀ s u c ts', Reads b es s (u ++ ts') → Line u c → EndsLine ts' → 4 * (u ++ ts').length + 4 ≤ n →
    ∃ s', parseline b es n s = .ok (c, s') ∧ Reads b es s' ts'

def PipeComplete (b : Nat → UInt8) (es n : Nat) : Prop :=
  ∀ s u c ts', Reads b es s (u ++ ts') → Pipe u c → EndsPipe ts' → 4 * (u ++ ts').length + 3 ≤ n →
    ∃ s', parsepipe b es n s = .ok (c, s') ∧ Reads b es s' ts'

def ExecComplete (b : Nat → UInt8) (es n : Nat) : Prop :=
  ∀ s u c ts', Reads b es s (u ++ ts') → Exec u c → EndsExec ts' → 4 * (u ++ ts').length + 2 ≤ n →
    ∃ s', parseexec b es n s = .ok (c, s') ∧ Reads b es s' ts'

def BlockComplete (b : Nat → UInt8) (es n : Nat) : Prop :=
  ∀ s lp u rp v c rs ts', Reads b es s (lp :: (u ++ rp :: (v ++ ts'))) → lp.kind = 40 → Line u c → rp.kind = 41 →
    Redirs v rs → EndsExec ts' →
    4 * (lp :: (u ++ rp :: (v ++ ts'))).length + 1 ≤ n → ∃ s', parseblock b es n s = .ok (wrap c rs, s') ∧
      Reads b es s' ts'

theorem line_complete (hb : Terminated b es) (hp : PipeComplete b es n) (hl : LineComplete b es n) :
    LineComplete b es (n + 1) := by
  intro s ph c ts' h hline hend hn
  have hamp : seen [38] ts' = false := seen_of_ends (by decide) fun t rest he hk => by
    have h41 := hend t rest he
    rw [hk] at h41
    cases h41
  cases hline with
  | @one u amps c hu ha =>
      rw [List.append_assoc] at h
      simp only [List.length_append] at hn
      have hends : EndsPipe (amps ++ ts') := by
        cases amps with
        | nil => exact hend.pipe
        | cons a amps =>
            intro t rest he
            obtain ⟨rfl, -⟩ := List.cons.inj he
            exact .inr (.inl (ha _ List.mem_cons_self))
      obtain ⟨s₁, hrun, h₁⟩ := hp s u c (amps ++ ts') h hu hends (by simp only [List.length_append]; omega)
      obtain ⟨s₂, hamps, h₂⟩ := amps_complete (n := n) (c := c) hb ha hamp h₁ (by omega)
      obtain ⟨s₃, hpeek, h₃⟩ := h₂.peek hb (show ([59] : List UInt8) ⊆ symbols by decide)
      have hsemi : seen [59] ts' = false := seen_of_ends (by decide) fun t rest he hk => by
        have h41 := hend t rest he
        rw [hk] at h41
        cases h41
      refine ⟨s₃, ?_, h₃⟩
      rw [parseline]
      simp only [hrun, hamps, hpeek, hsemi, Except.bind, bind]
      rfl
  | @list u amps v semi c d hu ha hs hd =>
      have hsplit : u ++ amps ++ semi :: v ++ ts' = u ++ (amps ++ semi :: (v ++ ts')) := by simp
      rw [hsplit] at h hn
      simp only [List.length_append, List.length_cons] at hn
      have hends : EndsPipe (amps ++ semi :: (v ++ ts')) := by
        cases amps with
        | nil =>
            intro t rest he
            obtain ⟨rfl, -⟩ := List.cons.inj he
            exact .inr (.inr hs)
        | cons a amps =>
            intro t rest he
            obtain ⟨rfl, -⟩ := List.cons.inj he
            exact .inr (.inl (ha _ List.mem_cons_self))
      obtain ⟨s₁, hrun, h₁⟩ := hp s u c _ h hu hends (by simp only [List.length_append, List.length_cons]; omega)
      have hstop : seen [38] (semi :: (v ++ ts')) = false := seen_of_ends (by decide) fun t rest he hk => by
        obtain ⟨rfl, -⟩ := List.cons.inj he
        rw [hk] at hs
        cases hs
      obtain ⟨s₂, hamps, h₂⟩ := amps_complete (n := n) (c := c) hb ha hstop h₁ (by omega)
      obtain ⟨s₃, hpeek, h₃⟩ := h₂.peek hb (show ([59] : List UInt8) ⊆ symbols by decide)
      obtain ⟨s₄, htok, h₄, -⟩ := h₃.token hb
      obtain ⟨s', hrun', hs'⟩ := hl s₄ v d ts' h₄ hd hend (by simp only [List.length_append]; omega)
      have hsemi : seen [59] (semi :: (v ++ ts')) = true := (leads_one (by decide)).mpr hs
      refine ⟨s', ?_, hs'⟩
      rw [parseline]
      simp only [hrun, hamps, hpeek, hsemi, if_true, htok, hrun', Except.bind, bind]

theorem pipe_complete (hb : Terminated b es) (he : ExecComplete b es n) (hp : PipeComplete b es n) :
    PipeComplete b es (n + 1) := by
  intro s ph c ts' h hpipe hend hn
  cases hpipe with
  | one hu =>
      obtain ⟨s₁, hrun, h₁⟩ := he s ph c ts' h hu hend.exec (by omega)
      obtain ⟨s₂, hpeek, h₂⟩ := h₁.peek hb (show ([124] : List UInt8) ⊆ symbols by decide)
      have hbar : seen [124] ts' = false := seen_of_ends (by decide) fun t rest hts hk => by
        rcases hend t rest hts with h' | h' | h' <;> rw [hk] at h' <;> cases h'
      refine ⟨s₂, ?_, h₂⟩
      rw [parsepipe]
      simp only [hrun, hpeek, hbar, Except.bind, bind]
      rfl
  | @pipe u v bar c d hu hbar hd =>
      have hsplit : u ++ bar :: v ++ ts' = u ++ bar :: (v ++ ts') := by simp
      rw [hsplit] at h hn
      simp only [List.length_append, List.length_cons] at hn
      have hends : EndsExec (bar :: (v ++ ts')) := by
        intro t rest hts
        obtain ⟨rfl, -⟩ := List.cons.inj hts
        exact .inl hbar
      obtain ⟨s₁, hrun, h₁⟩ := he s u c _ h hu hends (by simp only [List.length_append, List.length_cons]; omega)
      obtain ⟨s₂, hpeek, h₂⟩ := h₁.peek hb (show ([124] : List UInt8) ⊆ symbols by decide)
      obtain ⟨s₃, htok, h₃, -⟩ := h₂.token hb
      obtain ⟨s', hrun', hs'⟩ := hp s₃ v d ts' h₃ hd hend (by simp only [List.length_append]; omega)
      have hseen : seen [124] (bar :: (v ++ ts')) = true := (leads_one (by decide)).mpr hbar
      refine ⟨s', ?_, hs'⟩
      rw [parsepipe]
      simp only [hrun, hpeek, hseen, if_true, htok, hrun', Except.bind, bind]

theorem block_complete (hb : Terminated b es) (hl : LineComplete b es n) : BlockComplete b es (n + 1) := by
  intro s lp u rp v c rs ts' h hlp hc hrp hv hend hn
  simp only [List.length_append, List.length_cons] at hn
  obtain ⟨s₁, hpeek, h₁⟩ := h.peek hb (show ([40] : List UInt8) ⊆ symbols by decide)
  obtain ⟨s₂, htok, h₂, -⟩ := h₁.token hb
  have hends : EndsLine (rp :: (v ++ ts')) := by
    intro t rest hts
    obtain ⟨rfl, -⟩ := List.cons.inj hts
    exact hrp
  obtain ⟨s₃, hrun, h₃⟩ := hl s₂ u c _ h₂ hc hends (by simp only [List.length_append, List.length_cons]; omega)
  obtain ⟨s₄, hpeek', h₄⟩ := h₃.peek hb (show ([41] : List UInt8) ⊆ symbols by decide)
  obtain ⟨s₅, htok', h₅, -⟩ := h₄.token hb
  obtain ⟨s', hrun', hs'⟩ := parseredirs_complete (n := n) (c := c) hb hv hend.noRedir h₅ (by omega)
  have hseen : seen [40] (lp :: (u ++ rp :: (v ++ ts'))) = true := (leads_one (by decide)).mpr hlp
  have hseen' : seen [41] (rp :: (v ++ ts')) = true := (leads_one (by decide)).mpr hrp
  refine ⟨s', ?_, hs'⟩
  rw [parseblock]
  simp only [hpeek, hseen, Bool.not_true, Bool.false_eq_true, if_false, htok, hrun, hpeek', hseen', htok',
    Except.bind, bind, hrun']

theorem exec_complete (hb : Terminated b es) (hbl : BlockComplete b es n) : ExecComplete b es (n + 1) := by
  intro s ph c ts' h hexec hend hn
  cases hexec with
  | @block lp rp u v c rs hlp hc hrp hv =>
      have hsplit : lp :: (u ++ rp :: v) ++ ts' = lp :: (u ++ rp :: (v ++ ts')) := by simp
      rw [hsplit] at h hn
      obtain ⟨s₁, hpeek, h₁⟩ := h.peek hb (show ([40] : List UInt8) ⊆ symbols by decide)
      have hseen : seen [40] (lp :: (u ++ rp :: (v ++ ts'))) = true := (leads_one (by decide)).mpr hlp
      obtain ⟨s', hrun, hs'⟩ := hbl s₁ lp u rp v c rs ts' h₁ hlp hc hrp hv hend (by omega)
      refine ⟨s', ?_, hs'⟩
      rw [parseexec]
      simp only [hpeek, hseen, if_true, hrun]
  | @simple u v ws rs rs' hu hv hlt =>
      rw [List.append_assoc] at h
      simp only [List.length_append] at hn
      obtain ⟨s₁, hpeek, h₁⟩ := h.peek hb (show ([40] : List UInt8) ⊆ symbols by decide)
      have hseen : seen [40] (u ++ (v ++ ts')) = false := by
        refine seen_of_ends (by decide) fun t rest hts hk => ?_
        cases hu with
        | @cons op file u rs hop hfile hu =>
            obtain ⟨rfl, -⟩ := List.cons.inj hts
            rcases hop with h' | h' | h' <;> rw [hk] at h' <;> cases h'
        | nil =>
            cases hv with
            | @cons w u v ws rs rs' hw hr hrest =>
                obtain ⟨rfl, -⟩ := List.cons.inj hts
                rw [hk] at hw
                cases hw
            | nil => rcases hend t rest hts with h' | h' | h' | h' <;> rw [hk] at h' <;> cases h'
      obtain ⟨s₂, hred, h₂⟩ :=
        parseredirs_complete (n := n) (c := execOf []) hb hu (noRedir_words hv hend.noRedir) h₁ (by omega)
      obtain ⟨s', hrun, hs'⟩ := parseexec_complete (n := n) [] rs hb hv hend h₂ (by omega) hlt
      refine ⟨s', ?_, hs'⟩
      have hcell : execcmd = execOf [] := rfl
      rw [List.length_nil] at hrun
      rw [parseexec]
      simp only [hpeek, hseen, Bool.false_eq_true, if_false, hcell, hred, hrun, Except.bind, bind, List.nil_append]

theorem completes (hb : Terminated b es) (n : Nat) : LineComplete b es n ∧ PipeComplete b es n ∧ ExecComplete b es n ∧
    BlockComplete b es n := by
  induction n with
  | zero =>
      refine ⟨fun _ _ _ _ _ _ _ hn => ?_, fun _ _ _ _ _ _ _ hn => ?_, fun _ _ _ _ _ _ _ hn => ?_,
        fun _ _ _ _ _ _ _ _ _ _ _ _ _ _ hn => ?_⟩ <;> omega
  | succ n ih =>
      obtain ⟨hl, hp, he, hbl⟩ := ih
      exact ⟨line_complete hb hp hl, pipe_complete hb he hp, exec_complete hb hbl, block_complete hb hl⟩

theorem buffer_terminated {line : List UInt8} (h0 : 0 ∉ line) : Terminated (buffer line) line.length where
  inner i hi h := h0 (by
    rw [buffer, List.getD_eq_getElem?_getD, List.getElem?_eq_getElem hi, Option.getD_some] at h
    exact h ▸ List.getElem_mem hi)
  last := by rw [buffer, List.getD_eq_getElem?_getD, List.getElem?_eq_none (Nat.le_refl _), Option.getD_none]

/-- The tokens of a line as gettoken separates them. -/
def Tokens (line : List UInt8) (ts : List Tok) : Prop := Toks (buffer line) line.length 0 ts

theorem parsecmd_eq {line : List UInt8} {r : Parse (Cmd × Nat)}
    (hrun : parseline (buffer line) line.length (4 * line.length + 4) 0 = r) :
    parsecmd line = r.bind fun (cmd, s) =>
      if blanks (buffer line) line.length s ≠ line.length then .error (.panic "syntax")
      else .ok (cmd, nulterminate cmd (buffer line)) := by
  rw [parsecmd, hrun]
  rfl

theorem exists_tokens {line : List UInt8} (h0 : 0 ∉ line) : ∃ ts, Tokens line ts ∧ ts.length ≤ line.length := by
  obtain ⟨ts, hr, hlen⟩ := exists_reads (buffer_terminated h0) (Nat.zero_le _) (.inl rfl)
  exact ⟨ts, hr.toks, hlen⟩

theorem parsecmd_complete {line : List UInt8} (h0 : 0 ∉ line) (hts : Tokens line ts) (hlen : ts.length ≤ line.length)
    (hl : Line ts c) :
    parsecmd line = .ok (c, nulterminate c (buffer line)) := by
  have hb := buffer_terminated h0
  have hr : Reads (buffer line) line.length 0 (ts ++ []) := ⟨Nat.zero_le _, .inl rfl, by rwa [List.append_nil]⟩
  obtain ⟨s', hrun, hs'⟩ := (completes hb _).1 0 ts c [] hr hl (fun t rest he => by cases he)
    (show 4 * (ts ++ []).length + 4 ≤ 4 * line.length + 4 by rw [List.append_nil]; omega)
  rw [parsecmd_eq hrun]
  have hend := (hs'.blanks_eq hb).mpr rfl
  simp only [Except.bind, hend, ne_eq, not_true_eq_false, if_false]

theorem parsecmd_outcome {line : List UInt8} (h0 : 0 ∉ line) (hts : Tokens line ts) (hlen : ts.length ≤ line.length) :
    (∃ c, parsecmd line = .ok (c, nulterminate c (buffer line)) ∧ Line ts c) ∨ ∃ msg, msg ∈ messages ∧
      parsecmd line = .error (.panic msg) := by
  have hb := buffer_terminated h0
  rcases (outcomes hb _).1 0 ts ⟨Nat.zero_le _, .inl rfl, hts⟩
    (show 4 * ts.length + 4 ≤ 4 * line.length + 4 by omega) with
    ⟨c, s₁, u, ts₁, hrun, rfl, hu, h₁⟩ | ⟨msg, hm, hrun⟩
  · rw [parsecmd_eq hrun]
    simp only [Except.bind]
    by_cases hend : ts₁ = []
    · have he := (h₁.blanks_eq hb).mpr hend
      refine .inl ⟨c, if_neg (not_not_intro he), ?_⟩
      rwa [hend, List.append_nil]
    · exact .inr ⟨"syntax", by decide, if_pos fun he => hend ((h₁.blanks_eq hb).mp he)⟩
  · rw [parsecmd_eq hrun]
    exact .inr ⟨msg, hm, rfl⟩

/-- Every line has its tokens; parsecmd returns a tree exactly when they derive from the grammar,
and then the tree of the derivation,
and ends otherwise in a panic. A store outside argv or eargv would be another way to stop: there is none. -/
theorem parsecmd_iff (line : List UInt8) (h0 : 0 ∉ line) :
    ∃ ts, Tokens line ts ∧ (∀ c, (∃ b, parsecmd line = .ok (c, b)) ↔ Line ts c) ∧
      ((∃ c b, parsecmd line = .ok (c, b)) ∨ ∃ msg, msg ∈ messages ∧ parsecmd line = .error (.panic msg)) := by
  obtain ⟨ts, hts, hlen⟩ := exists_tokens h0
  refine ⟨ts, hts, fun c => ⟨?_, fun hl => ⟨_, parsecmd_complete h0 hts hlen hl⟩⟩, ?_⟩
  · rintro ⟨b, hrun⟩
    rcases parsecmd_outcome h0 hts hlen with ⟨c', hrun', hl⟩ | ⟨msg, -, hrun'⟩
    · rw [hrun'] at hrun
      cases hrun
      exact hl
    · rw [hrun'] at hrun
      cases hrun
  · rcases parsecmd_outcome h0 hts hlen with ⟨c, hrun, -⟩ | hpanic
    · exact .inl ⟨c, _, hrun⟩
    · exact .inr hpanic

-- "ls>a|b"
theorem parsecmd_iff_pipe : (∃ c b, parsecmd [108, 115, 62, 97, 124, 98] = .ok (c, b)) ∧
    ∃ ts, Tokens [108, 115, 62, 97, 124, 98] ts ∧
      (∀ c, (∃ b, parsecmd [108, 115, 62, 97, 124, 98] = .ok (c, b)) ↔ Line ts c) ∧
      ((∃ c b, parsecmd [108, 115, 62, 97, 124, 98] = .ok (c, b)) ∨
        ∃ msg, msg ∈ messages ∧ parsecmd [108, 115, 62, 97, 124, 98] = .error (.panic msg)) := by
  have hok : (parsecmd [108, 115, 62, 97, 124, 98]).toOption.isSome = true := by decide +kernel
  refine ⟨?_, parsecmd_iff [108, 115, 62, 97, 124, 98] (by decide)⟩
  cases hrun : parsecmd [108, 115, 62, 97, 124, 98] with
  | ok r => exact ⟨r.1, r.2, rfl⟩
  | error e =>
      rw [hrun] at hok
      cases hok

end ArmXv6.ShellParsing
