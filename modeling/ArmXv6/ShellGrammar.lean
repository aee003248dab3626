import ArmXv6.ShellParser

namespace ArmXv6.ShellGrammar

open ShellParser

/-- A token: what gettoken calls it, and where it begins and ends. -/
structure Tok where
  kind : UInt8
  q : Nat
  eq : Nat

/-- A redirection with its file name, its mode and its descriptor. -/
structure Redir where
  file : Nat
  efile : Nat
  mode : Nat
  fd : Nat

/-- What a redirection operator opens and where. -/
def redirOf (op file : Tok) : Redir :=
  ⟨file.q, file.eq, if op.kind = 60 then O_RDONLY else O_WRONLY ||| O_CREATE, if op.kind = 60 then 0 else 1⟩

def IsRedir (t : Tok) : Prop := t.kind = 60 ∨ t.kind = 62 ∨ t.kind = 43

/-- The redirections around a command, the first one innermost. -/
def wrap (c : Cmd) (rs : List Redir) : Cmd := rs.foldl (fun c r => .redir c r.file r.efile r.mode r.fd) c

/-- The cell for the given words. -/
def execOf (words : List Tok) : Cmd :=
  .exec (words.map (some ·.q) ++ List.replicate (MAXARGS - words.length) none)
    (words.map (·.eq) ++ List.replicate (MAXARGS - words.length) 0)

def backs : Nat → Cmd → Cmd
  | 0, c => c
  | n + 1, c => backs n (.back c)

-- redir*
inductive Redirs : List Tok → List Redir → Prop
  | nil : Redirs [] []
  | cons {op file : Tok} {u : List Tok} {rs : List Redir} (hop : IsRedir op) (hfile : file.kind = 97)
      (h : Redirs u rs) :
      Redirs (op :: file :: u) (redirOf op file :: rs)

-- (word redir*)*
inductive Words : List Tok → List Tok → List Redir → Prop
  | nil : Words [] [] []
  | cons {w : Tok} {u v ws : List Tok} {rs rs' : List Redir} (hw : w.kind = 97) (hr : Redirs u rs)
      (h : Words v ws rs') :
      Words (w :: (u ++ v)) (w :: ws) (rs ++ rs')

mutual

-- pipe '&'* [';' line]
inductive Line : List Tok → Cmd → Prop
  | one {u amps : List Tok} {c : Cmd} (hc : Pipe u c) (ha : ∀ t ∈ amps, t.kind = 38) :
      Line (u ++ amps) (backs amps.length c)
  | list {u amps v : List Tok} {semi : Tok} {c d : Cmd} (hc : Pipe u c) (ha : ∀ t ∈ amps, t.kind = 38)
      (hs : semi.kind = 59)
      (hd : Line v d) : Line (u ++ amps ++ semi :: v) (.list (backs amps.length c) d)

-- exec ['|' pipe]
inductive Pipe : List Tok → Cmd → Prop
  | one {u : List Tok} {c : Cmd} (hc : Exec u c) : Pipe u c
  | pipe {u v : List Tok} {bar : Tok} {c d : Cmd} (hc : Exec u c) (hb : bar.kind = 124) (hd : Pipe v d) :
      Pipe (u ++ bar :: v) (.pipe c d)

-- '(' line ')' redir* or redir* (word redir*)*
inductive Exec : List Tok → Cmd → Prop
  | block {lp rp : Tok} {u v : List Tok} {c : Cmd} {rs : List Redir} (hl : lp.kind = 40) (hc : Line u c)
      (hr : rp.kind = 41)
      (hv : Redirs v rs) : Exec (lp :: (u ++ rp :: v)) (wrap c rs)
  | simple {u v ws : List Tok} {rs rs' : List Redir} (hr : Redirs u rs) (hw : Words v ws rs')
      (hlt : ws.length < MAXARGS) :
      Exec (u ++ v) (wrap (execOf ws) (rs ++ rs'))

end

/-- The tokens from position s on, as gettoken separates them. -/
inductive Toks (b : Nat → UInt8) (es : Nat) : Nat → List Tok → Prop
  | nil {s q eq s' : Nat} (h : gettoken b es s = (0, q, eq, s')) : Toks b es s []
  | cons {s q eq s' : Nat} {k : UInt8} {ts : List Tok} (h : gettoken b es s = (k, q, eq, s')) (hk : k ≠ 0)
      (hts : Toks b es s' ts) :
      Toks b es s (⟨k, q, eq⟩ :: ts)

structure Terminated (b : Nat → UInt8) (es : Nat) : Prop where
  inner : ∀ i, i < es → b i ≠ 0
  last : b es = 0

variable {b : Nat → UInt8} {es s s' : Nat} {p : UInt8 → Bool}

theorem skip_loop_spec (n s : Nat) :
    s ≤ skip.loop b p n s ∧ skip.loop b p n s ≤ s + n ∧ (∀ i, s ≤ i → i < skip.loop b p n s → p (b i) = true) ∧
      (skip.loop b p n s < s + n → p (b (skip.loop b p n s)) = false) := by
  induction n generalizing s with
  | zero =>
      exact ⟨Nat.le_refl _, Nat.le_refl _, fun i h₁ h₂ => absurd h₂ (Nat.not_lt.mpr h₁), fun h =>
        absurd h (Nat.lt_irrefl s)⟩
  | succ n ih =>
      by_cases hp : p (b s) = true
      · rw [skip.loop, if_pos hp]
        obtain ⟨h₁, h₂, h₃, h₄⟩ := ih (s + 1)
        refine ⟨by omega, by omega, fun i hi hi' => ?_, fun h => h₄ (by omega)⟩
        by_cases his : i = s
        · rw [his, hp]
        · exact h₃ i (by omega) hi'
      · rw [skip.loop, if_neg hp]
        exact ⟨Nat.le_refl _, by omega, fun i h₁ h₂ => absurd h₂ (Nat.not_lt.mpr h₁), fun _ => by simpa using hp⟩

theorem skip_spec (hs : s ≤ es) :
    s ≤ skip b es p s ∧ skip b es p s ≤ es ∧ (∀ i, s ≤ i → i < skip b es p s → p (b i) = true) ∧
      (skip b es p s < es → p (b (skip b es p s)) = false) := by
  obtain ⟨h₁, h₂, h₃, h₄⟩ := @skip_loop_spec b p (es - s) s
  exact ⟨h₁, by unfold skip; omega, h₃, fun h => h₄ (by unfold skip at h; omega)⟩

theorem skip_stop (h : s < es → p (b s) = false) : skip b es p s = s := by
  unfold skip
  cases hn : es - s with
  | zero => rfl
  | succ n => rw [skip.loop, h (by omega), if_neg Bool.false_ne_true]

theorem blanks_blanks (hs : s ≤ es) : blanks b es (blanks b es s) = blanks b es s :=
  skip_stop (skip_spec hs).2.2.2

theorem blanks_le (hs : s ≤ es) : blanks b es s ≤ es := (skip_spec hs).2.1

theorem gettoken_blanks (hs : s ≤ es) : gettoken b es (blanks b es s) = gettoken b es s := by
  rw [gettoken, blanks_blanks hs, gettoken]

theorem toks_blanks {ts : List Tok} (hs : s ≤ es) (h : Toks b es s ts) : Toks b es (blanks b es s) ts := by
  cases h with
  | nil h => exact .nil ((gettoken_blanks hs).trans h)
  | cons h hk hts => exact .cons ((gettoken_blanks hs).trans h) hk hts

/-- The bytes of a word. -/
def Plain (c : UInt8) : Prop := c ≠ 0 ∧ c ∉ whitespace ∧ c ∉ symbols

/-- The bytes from q up to eq are a word that cannot be extended to either side. -/
structure Span (b : Nat → UInt8) (es q eq : Nat) : Prop where
  lt : q < eq
  le : eq ≤ es
  plain : ∀ i, q ≤ i → i < eq → Plain (b i)
  start : q = 0 ∨ ¬Plain (b (q - 1))
  stop : ¬Plain (b eq)

/-- No word is cut in two at s. -/
def Fresh (b : Nat → UInt8) (s : Nat) : Prop := s = 0 ∨ ¬Plain (b (s - 1)) ∨ ¬Plain (b s)

theorem not_plain_blank {c : UInt8} (h : strchr whitespace c = true) : ¬Plain c := fun hp =>
  hp.2.1 (List.contains_iff_mem.mp h)

theorem Terminated.not_plain (hb : Terminated b es) : ¬Plain (b es) := fun hp => hp.1 hb.last

theorem blanks_fresh (hs : s ≤ es) (hf : Fresh b s) :
    Plain (b (blanks b es s)) → blanks b es s = 0 ∨ ¬Plain (b (blanks b es s - 1)) := by
  obtain ⟨h₁, -, h₃, -⟩ := skip_spec (b := b) (p := strchr whitespace) hs
  intro hp
  by_cases he : blanks b es s = s
  · rw [he] at hp ⊢
    rcases hf with h0 | hprev | hhere
    · exact .inl h0
    · exact .inr hprev
    · exact absurd hp hhere
  · have hlt : s < blanks b es s := Nat.lt_of_le_of_ne h₁ fun h => he h.symm
    exact .inr (not_plain_blank (h₃ _ (by omega) (by unfold blanks at *; omega)))

theorem blanks_stop (hb : Terminated b es) (hs : s ≤ es) : strchr whitespace (b (blanks b es s)) = false := by
  rcases Nat.lt_or_ge (blanks b es s) es with hlt | hge
  · exact (skip_spec hs).2.2.2 hlt
  · have he : blanks b es s = es := Nat.le_antisymm (blanks_le hs) hge
    rw [he, hb.last]
    rfl

/-- What a peek for one of the symbols sees of a token. -/
def leads (toks : List UInt8) (k : UInt8) : Bool := toks.contains k || (k == 43 && toks.contains 62)

/-- What the switch of gettoken makes of a position behind the blanks. -/
structure Scanned (b : Nat → UInt8) (es q : Nat) (k : UInt8) (eq : Nat) : Prop where
  none : k = 0 → eq = es ∧ b q = 0
  lt : k ≠ 0 → q < eq
  le : eq ≤ es
  span : k = 97 → Span b es q eq
  op : k ≠ 97 → eq ≤ q + 2 ∧ ¬Plain (b q)
  fresh : Fresh b eq
  lead : k ≠ 0 → b q ≠ 0 ∧ ∀ toks : List UInt8, toks ⊆ symbols → toks.contains (b q) = leads toks k

theorem scan_spec {q : Nat} (hb : Terminated b es) (hq : q ≤ es) (hblank : strchr whitespace (b q) = false)
    (hstart : Plain (b q) → q = 0 ∨ ¬Plain (b (q - 1))) :
    Scanned b es q (gettoken.scan b es q).1 (gettoken.scan b es q).2 := by
  have hin : ∀ i, b i ≠ 0 → i ≤ es → i < es := fun i hi hle => Nat.lt_of_le_of_ne hle fun he => hi (he ▸ hb.last)
  have hsym : ∀ i c, b i = c → c ∈ symbols → Fresh b (i + 1) := fun i c hc hmem =>
    .inr (.inl fun hp => hp.2.2 (by rw [Nat.add_sub_cancel, hc]; exact hmem))
  unfold gettoken.scan
  by_cases h0 : b q = 0
  · rw [if_pos h0]
    have he : q = es := by
      by_contra hne
      exact hb.inner q (Nat.lt_of_le_of_ne hq hne) h0
    exact ⟨fun _ => ⟨he, h0⟩, fun h => absurd rfl h, hq, fun h => absurd h (by simp), fun _ =>
      ⟨by omega, fun hp => hp.1 h0⟩, .inr (.inr fun hp => hp.1 h0),
      fun h => absurd rfl h⟩
  · rw [if_neg h0]
    have hlt := hin q h0 hq
    by_cases hop : strchr [124, 40, 41, 59, 38, 60] (b q) = true
    · rw [if_pos hop]
      have hmem : b q ∈ [124, 40, 41, 59, 38, 60] := List.contains_iff_mem.mp hop
      have hsub : ([124, 40, 41, 59, 38, 60] : List UInt8) ⊆ symbols := by decide
      have hne : ∀ c ∈ ([124, 40, 41, 59, 38, 60] : List UInt8), c ≠ 97 ∧ c ≠ 43 := by simp
      refine ⟨fun h => absurd h h0, fun _ => Nat.lt_succ_self q, hlt, fun h => absurd h (hne _ hmem).1,
        fun _ => ⟨by omega, fun hp => hp.2.2 (hsub hmem)⟩, hsym q _ rfl (hsub hmem), fun _ => ⟨h0, fun toks _ => ?_⟩⟩
      simp [leads, (hne _ hmem).2]
    · rw [if_neg hop]
      by_cases hgt : b q = 62
      · rw [if_pos hgt]
        have hgt' : ¬Plain (b q) := fun hp => hp.2.2 (by rw [hgt]; decide)
        by_cases hgg : b (q + 1) = 62
        · rw [if_pos hgg]
          have hlt' : q + 1 < es := hin (q + 1) (by rw [hgg]; decide) hlt
          refine ⟨fun h => absurd h (by simp), fun _ => by omega, hlt', fun h => absurd h (by simp), fun _ =>
            ⟨Nat.le_refl _, hgt'⟩,
            hsym (q + 1) 62 hgg (by decide), fun _ => ⟨h0, fun toks hsub => ?_⟩⟩
          have h43 : (43 : UInt8) ∉ toks := fun hm => absurd (hsub hm) (by decide)
          simp [leads, hgt, h43]
        · rw [if_neg hgg]
          refine ⟨fun h => absurd h (by simp), fun _ => by omega, hlt, fun h => absurd h (by simp), fun _ =>
            ⟨by omega, hgt'⟩,
            hsym q 62 hgt (by decide), fun _ => ⟨h0, fun toks _ => ?_⟩⟩
          simp [leads, hgt]
      · rw [if_neg hgt]
        have hplain : Plain (b q) := by
          refine ⟨h0, fun hm => ?_, fun hm => ?_⟩
          · rw [strchr, List.contains_iff_mem.mpr hm] at hblank
            cases hblank
          · have hsplit : ∀ c ∈ symbols, c = 62 ∨ c ∈ [124, 40, 41, 59, 38, 60] := by simp [symbols]
            rcases hsplit _ hm with h | h
            · exact hgt h
            · exact hop (List.contains_iff_mem.mpr h)
        obtain ⟨h₁, h₂, h₃, h₄⟩ := skip_spec (b := b) (p := fun c => !strchr whitespace c && !strchr symbols c) hq
        have hall : ∀ i, q ≤ i → i < word b es q → Plain (b i) := fun i hi hi' => by
          have hp := h₃ i hi hi'
          simp only [Bool.and_eq_true, Bool.not_eq_true', strchr, List.contains_eq_mem, decide_eq_false_iff_not] at hp
          exact ⟨hb.inner i (by unfold word at hi'; omega), hp.1, hp.2⟩
        have hend : ¬Plain (b (word b es q)) := by
          rcases Nat.lt_or_ge (word b es q) es with hw | hw
          · intro hp
            have hstop := h₄ hw
            have h₅ : strchr whitespace (b (word b es q)) = false := by simpa [strchr] using hp.2.1
            have h₆ : strchr symbols (b (word b es q)) = false := by simpa [strchr] using hp.2.2
            unfold word at h₅ h₆
            simp only [h₅, h₆] at hstop
            cases hstop
          · have he : word b es q = es := Nat.le_antisymm h₂ hw
            rw [he]
            exact hb.not_plain
        have hpos : q < word b es q := by
          refine Nat.lt_of_le_of_ne h₁ fun he => hend ?_
          rw [← he]
          exact hplain
        refine ⟨fun h => absurd h (by simp), fun _ => hpos, h₂, fun _ => ⟨hpos, h₂, hall, hstart hplain, hend⟩,
          fun h => absurd rfl h, .inr (.inr hend), fun _ => ⟨h0, fun toks hsub => ?_⟩⟩
        have h97 : (97 : UInt8) ∉ toks := fun hm => absurd (hsub hm) (by decide)
        have hbq : b q ∉ toks := fun hm => hplain.2.2 (hsub hm)
        simp [leads, h97, hbq]

theorem fresh_blanks {s : Nat} (hs : s ≤ es) (hf : Fresh b s) : Fresh b (blanks b es s) := by
  by_cases hp : Plain (b (blanks b es s))
  · exact (blanks_fresh hs hf hp).imp_right .inl
  · exact .inr (.inr hp)

/-- The parser stands at s, and ts are the tokens from there on. -/
structure Reads (b : Nat → UInt8) (es s : Nat) (ts : List Tok) : Prop where
  le : s ≤ es
  fresh : Fresh b s
  toks : Toks b es s ts

variable {t : Tok} {ts : List Tok}

theorem scanned (hb : Terminated b es) (hs : s ≤ es) (hf : Fresh b s) {k : UInt8} {q eq : Nat}
    (h : gettoken b es s = (k, q, eq, s')) :
    q = blanks b es s ∧ Scanned b es q k eq ∧ s' = blanks b es eq := by
  unfold gettoken at h
  simp only [Prod.mk.injEq] at h
  obtain ⟨rfl, rfl, rfl, rfl⟩ := h
  exact ⟨rfl, scan_spec hb (blanks_le hs) (blanks_stop hb hs) (blanks_fresh hs hf), rfl⟩

theorem Reads.token (hb : Terminated b es) (h : Reads b es s (t :: ts)) :
    ∃ s', gettoken b es s = (t.kind, t.q, t.eq, s') ∧ Reads b es s' ts ∧ s < s' ∧ t.kind ≠ 0 ∧
      (t.kind = 97 → Span b es t.q t.eq) ∧ (t.kind ≠ 97 → t.eq ≤ t.q + 2 ∧ ¬Plain (b t.q)) := by
  obtain ⟨hs, hf, ht⟩ := h
  cases ht with
  | @cons _ q eq s' k _ hg hk hts =>
      obtain ⟨hq, hsc, hs'⟩ := scanned hb hs hf hg
      have hle : s ≤ q := hq ▸ (skip_spec hs).1
      have hlt : eq ≤ s' := hs' ▸ (skip_spec hsc.le).1
      have hmid := hsc.lt hk
      exact ⟨s', hg, ⟨hs' ▸ blanks_le hsc.le, hs' ▸ fresh_blanks hsc.le hsc.fresh, hts⟩, by omega, hk, hsc.span, hsc.op⟩

theorem toks_end (hb : Terminated b es) : Toks b es es [] := by
  have hstay : blanks b es es = es := skip_stop fun h => absurd h (Nat.lt_irrefl es)
  have hscan : gettoken.scan b es es = (0, es) := by rw [gettoken.scan, if_pos hb.last]
  refine @Toks.nil b es es es es es ?_
  rw [gettoken, hstay, hscan]
  simp only [hstay]

theorem Reads.nothing (hb : Terminated b es) (h : Reads b es s []) : ∃ q eq s', gettoken b es s = (0, q, eq, s') ∧
    Reads b es s' [] := by
  obtain ⟨hs, hf, ht⟩ := h
  cases ht with
  | @nil _ q eq s' hg =>
      obtain ⟨-, hsc, hs'⟩ := scanned hb hs hf hg
      have hstay : blanks b es es = es := skip_stop fun h => absurd h (Nat.lt_irrefl es)
      rw [(hsc.none rfl).1, hstay] at hs'
      subst hs'
      exact ⟨q, eq, s', hg, Nat.le_refl _, .inr (.inr hb.not_plain), toks_end hb⟩

/-- The first token begins with one of the symbols. -/
def seen (toks : List UInt8) : List Tok → Bool
  | [] => false
  | t :: _ => leads toks t.kind

theorem Reads.peek (hb : Terminated b es) (h : Reads b es s ts) {toks : List UInt8} (hsub : toks ⊆ symbols) :
    ∃ s', peek b es s toks = (s', seen toks ts) ∧ Reads b es s' ts := by
  obtain ⟨hs, hf, ht⟩ := h
  refine ⟨blanks b es s, ?_, blanks_le hs, fresh_blanks hs hf, toks_blanks hs ht⟩
  rw [ShellParser.peek]
  congr 1
  cases ht with
  | nil hg =>
      obtain ⟨hq, hsc, -⟩ := scanned hb hs hf hg
      have h0 := (hsc.none rfl).2
      rw [hq] at h0
      simp [h0, seen]
  | cons hg hk hts =>
      obtain ⟨hq, hsc, -⟩ := scanned hb hs hf hg
      obtain ⟨h0, hlead⟩ := hsc.lead hk
      rw [hq] at h0 hlead
      simp only [seen, strchr, hlead toks hsub]
      simp [h0]

theorem exists_reads (hb : Terminated b es) (hs : s ≤ es) (hf : Fresh b s) : ∃ ts, Reads b es s ts ∧
    ts.length + s ≤ es := by
  obtain ⟨n, hn⟩ : ∃ n, es - s = n := ⟨_, rfl⟩
  induction n using Nat.strongRecOn generalizing s with
  | ind n ih =>
      obtain ⟨⟨k, q, eq, s'⟩, hg⟩ : ∃ r, gettoken b es s = r := ⟨_, rfl⟩
      obtain ⟨hq, hsc, hs'⟩ := scanned hb hs hf hg
      by_cases hk : k = 0
      · subst hk
        exact ⟨[], ⟨hs, hf, .nil hg⟩, by simpa using hs⟩
      · have hle : s ≤ q := hq ▸ (skip_spec hs).1
        have hlt : eq ≤ s' := hs' ▸ (skip_spec hsc.le).1
        have hmid := hsc.lt hk
        have hes : s' ≤ es := hs' ▸ blanks_le hsc.le
        obtain ⟨ts, hts, hlen⟩ := ih (es - s') (by omega) hes (hs' ▸ fresh_blanks hsc.le hsc.fresh) rfl
        refine ⟨⟨k, q, eq⟩ :: ts, ⟨hs, hf, .cons hg hk hts.toks⟩, ?_⟩
        rw [List.length_cons]
        omega

/-- The words of a line are spans of it, and its operators begin with a symbol and have no more than two bytes. -/
theorem Toks.spans (hb : Terminated b es) (hs : s ≤ es) (hf : Fresh b s) (h : Toks b es s ts) :
    ∀ t ∈ ts, (t.kind = 97 → Span b es t.q t.eq) ∧ (t.kind ≠ 97 → t.eq ≤ t.q + 2 ∧ ¬Plain (b t.q)) := by
  induction h with
  | nil => exact fun t ht => absurd ht List.not_mem_nil
  | @cons s q eq s' k ts hg hk hts ih =>
      obtain ⟨s'', hg', hr, -, -, hspan⟩ := Reads.token hb ⟨hs, hf, .cons hg hk hts⟩
      rw [hg] at hg'
      simp only [Prod.mk.injEq] at hg'
      obtain ⟨-, -, -, rfl⟩ := hg'
      intro t ht
      rcases List.mem_cons.mp ht with rfl | ht
      · exact hspan
      · exact ih hr.le hr.fresh t ht

theorem Reads.blanks_eq (hb : Terminated b es) (h : Reads b es s ts) : blanks b es s = es ↔ ts = [] := by
  obtain ⟨hs, hf, ht⟩ := h
  cases ht with
  | nil hg =>
      obtain ⟨hq, hsc, -⟩ := scanned hb hs hf hg
      have h0 := (hsc.none rfl).2
      rw [hq] at h0
      refine iff_of_true ?_ rfl
      by_contra hne
      exact hb.inner _ (Nat.lt_of_le_of_ne (blanks_le hs) hne) h0
  | cons hg hk hts =>
      obtain ⟨hq, hsc, -⟩ := scanned hb hs hf hg
      have hlt := hsc.lt hk
      have hle := hsc.le
      rw [hq] at hlt
      exact iff_of_false (by omega) (List.cons_ne_nil _ _)

end ArmXv6.ShellGrammar
