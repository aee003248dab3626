import ArmXv6.ShellParsing

namespace ArmXv6.ShellStrings

open ShellParser ShellGrammar ShellParsing

/-- Where the strings of a cell begin and end, up to the null pointer. -/
def execStrings : List (Option Nat) → List Nat → List (Nat × Nat)
  | some q :: argv, e :: eargv => (q, e) :: execStrings argv eargv
  | _, _ => []

/-- All strings of a tree, in the order in which nulterminate comes to their ends. -/
def strings : Cmd → List (Nat × Nat)
  | .exec argv eargv => execStrings argv eargv
  | .redir cmd file efile _ _ => strings cmd ++ [(file, efile)]
  | .pipe left right => strings left ++ strings right
  | .list left right => strings left ++ strings right
  | .back cmd => strings cmd

def zeroAll (es : List Nat) (b : Nat → UInt8) : Nat → UInt8 := es.foldl (fun b e => Function.update b e 0) b

variable {b : Nat → UInt8} {es : Nat} {u v ts ws : List Tok} {rs rs' : List Redir} {c d : Cmd} {p : Nat × Nat}

theorem zeroAll_append (l l' : List Nat) (b : Nat → UInt8) : zeroAll (l ++ l') b = zeroAll l' (zeroAll l b) :=
  List.foldl_append

theorem zeroAll_apply (l : List Nat) (b : Nat → UInt8) (i : Nat) : zeroAll l b i = if i ∈ l then 0 else b i := by
  induction l generalizing b with
  | nil => simp [zeroAll]
  | cons e l ih =>
      have hstep : zeroAll (e :: l) b = zeroAll l (Function.update b e 0) := rfl
      rw [hstep, ih, Function.update_apply]
      by_cases hi : i = e <;> by_cases hl : i ∈ l <;> simp [hi, hl]

theorem nulterminate_loop_eq (argv : List (Option Nat)) (eargv : List Nat) (b : Nat → UInt8) :
    nulterminate.loop argv eargv b = zeroAll ((execStrings argv eargv).map Prod.snd) b := by
  fun_induction nulterminate.loop argv eargv b with
  | case1 q argv e eargv b ih => rw [ih]; rfl
  | case2 argv eargv b hno =>
      have hnone : execStrings argv eargv = [] := by
        cases argv with
        | nil => rfl
        | cons a argv =>
            cases a with
            | none => rfl
            | some q =>
                cases eargv with
                | nil => rfl
                | cons e eargv => exact absurd rfl (hno q argv e eargv rfl)
      rw [hnone]
      rfl

/-- nulterminate writes a NUL at the end of every string of the tree and nowhere else. -/
theorem nulterminate_eq (c : Cmd) (b : Nat → UInt8) : nulterminate c b = zeroAll ((strings c).map Prod.snd) b := by
  induction c generalizing b with
  | exec argv eargv => exact nulterminate_loop_eq argv eargv b
  | redir c f e m fd ih =>
      rw [nulterminate, ih, strings, List.map_append, zeroAll_append]
      rfl
  | pipe l r ihl ihr => rw [nulterminate, ihl, ihr, strings, List.map_append, zeroAll_append]
  | list l r ihl ihr => rw [nulterminate, ihl, ihr, strings, List.map_append, zeroAll_append]
  | back c ih => rw [nulterminate, ih, strings]

/-- The string is a word among the tokens. -/
def FromWord (ts : List Tok) (p : Nat × Nat) : Prop := ∃ t ∈ ts, t.kind = 97 ∧ (t.q, t.eq) = p

theorem FromWord.mono (h : FromWord u p) (hsub : ∀ t ∈ u, t ∈ ts) : FromWord ts p := by
  obtain ⟨t, ht, hk, he⟩ := h
  exact ⟨t, hsub t ht, hk, he⟩

theorem execStrings_words (ws : List Tok) (k : Nat) :
    execStrings (ws.map (some ·.q) ++ List.replicate k none) (ws.map (·.eq) ++ List.replicate k 0) = ws.map fun t =>
      (t.q, t.eq) := by
  induction ws with
  | nil => cases k <;> rfl
  | cons w ws ih =>
      rw [List.map_cons, List.map_cons, List.map_cons, List.cons_append, List.cons_append, execStrings, ih]

theorem strings_wrap (c : Cmd) (rs : List Redir) : strings (wrap c rs) = strings c ++ rs.map fun r =>
    (r.file, r.efile) := by
  induction rs generalizing c with
  | nil => simp [wrap]
  | cons r rs ih => rw [wrap_cons, ih, strings, List.map_cons, List.append_assoc, List.singleton_append]

theorem strings_backs (n : Nat) (c : Cmd) : strings (backs n c) = strings c := by
  induction n generalizing c with
  | zero => rfl
  | succ n ih => rw [backs, ih, strings]

theorem redirs_fromWord (h : Redirs u rs) : ∀ r ∈ rs, FromWord u (r.file, r.efile) := by
  induction h with
  | nil => exact fun r hr => absurd hr List.not_mem_nil
  | @cons op file u rs hop hw h ih =>
      intro r hr
      rcases List.mem_cons.mp hr with rfl | hr
      · exact ⟨file, by simp, hw, rfl⟩
      · exact (ih r hr).mono fun t ht => by simp [ht]

theorem words_fromWord (h : Words u ws rs) : (∀ w ∈ ws, w ∈ u ∧ w.kind = 97) ∧ ∀ r ∈ rs,
    FromWord u (r.file, r.efile) := by
  induction h with
  | nil => exact ⟨fun w hw => absurd hw List.not_mem_nil, fun r hr => absurd hr List.not_mem_nil⟩
  | @cons w u v ws rs rs' hw hr h ih =>
      refine ⟨fun w' hw' => ?_, fun r hr' => ?_⟩
      · rcases List.mem_cons.mp hw' with rfl | hw'
        · exact ⟨List.mem_cons_self, hw⟩
        · exact ⟨by simp [(ih.1 w' hw').1], (ih.1 w' hw').2⟩
      · rcases List.mem_append.mp hr' with hr' | hr'
        · exact (redirs_fromWord hr r hr').mono fun t ht => by simp [ht]
        · exact (ih.2 r hr').mono fun t ht => by simp [ht]

mutual

theorem line_fromWord : ∀ {u : List Tok} {c : Cmd}, Line u c → ∀ p ∈ strings c, FromWord u p
  | _, _, .one hc _, p, hp => by
      rw [strings_backs] at hp
      exact (pipe_fromWord hc p hp).mono fun t ht => List.mem_append_left _ ht
  | _, _, .list hc _ _ hd, p, hp => by
      rw [strings, strings_backs] at hp
      rcases List.mem_append.mp hp with hp | hp
      · exact (pipe_fromWord hc p hp).mono fun t ht => by simp [ht]
      · exact (line_fromWord hd p hp).mono fun t ht => by simp [ht]

theorem pipe_fromWord : ∀ {u : List Tok} {c : Cmd}, Pipe u c → ∀ p ∈ strings c, FromWord u p
  | _, _, .one hc, p, hp => exec_fromWord hc p hp
  | _, _, .pipe hc _ hd, p, hp => by
      rw [strings] at hp
      rcases List.mem_append.mp hp with hp | hp
      · exact (exec_fromWord hc p hp).mono fun t ht => by simp [ht]
      · exact (pipe_fromWord hd p hp).mono fun t ht => by simp [ht]

theorem exec_fromWord : ∀ {u : List Tok} {c : Cmd}, Exec u c → ∀ p ∈ strings c, FromWord u p
  | _, _, .block _ hc _ hv, p, hp => by
      rw [strings_wrap] at hp
      rcases List.mem_append.mp hp with hp | hp
      · exact (line_fromWord hc p hp).mono fun t ht => by simp [ht]
      · obtain ⟨r, hr, rfl⟩ := List.mem_map.mp hp
        exact (redirs_fromWord hv r hr).mono fun t ht => by simp [ht]
  | _, _, .simple hr hw _, p, hp => by
      rw [strings_wrap, execOf, strings, execStrings_words] at hp
      rcases List.mem_append.mp hp with hp | hp
      · obtain ⟨w, hw', rfl⟩ := List.mem_map.mp hp
        exact ⟨w, List.mem_append_right _ ((words_fromWord hw).1 w hw').1, ((words_fromWord hw).1 w hw').2, rfl⟩
      · obtain ⟨r, hr', rfl⟩ := List.mem_map.mp hp
        rcases List.mem_append.mp hr' with hr' | hr'
        · exact (redirs_fromWord hr r hr').mono fun t ht => List.mem_append_left _ ht
        · exact ((words_fromWord hw).2 r hr').mono fun t ht => List.mem_append_right _ ht

end

/-- Read from q on, the bytes up to the first NUL are those that the line has from q up to e. -/
structure Keeps (line : List UInt8) (b : Nat → UInt8) (q e : Nat) : Prop where
  same : ∀ i, q ≤ i → i < e → b i = buffer line i ∧ b i ≠ 0
  nul : b e = 0

/-- After parsecmd every argument and every file name of the tree is, up to its first NUL, the word
that gettoken has delimited, the longest
run of characters around it that are neither blanks nor symbols. The line has changed only at the
ends of these strings, which lie in it or at
its NUL and inside of no token. -/
theorem parsecmd_strings (line : List UInt8) (h0 : 0 ∉ line) (c : Cmd) (b : Nat → UInt8)
    (hrun : parsecmd line = .ok (c, b)) :
    ∃ ts, Tokens line ts ∧
      (∀ i, b i = if i ∈ (strings c).map Prod.snd then 0 else buffer line i) ∧
      ∀ p ∈ strings c, FromWord ts p ∧ Span (buffer line) line.length p.1 p.2 ∧ Keeps line b p.1 p.2 ∧
        ∀ t ∈ ts, ¬(t.q < p.2 ∧ p.2 < t.eq) ∧ (t.kind = 97 → ¬(t.q ≤ p.2 ∧ p.2 < t.eq)) := by
  have hb := buffer_terminated h0
  obtain ⟨ts, hts, hlen⟩ := exists_tokens h0
  obtain ⟨hl, rfl⟩ : Line ts c ∧ b = nulterminate c (buffer line) := by
    rcases parsecmd_outcome h0 hts hlen with ⟨c', hrun', hl⟩ | ⟨msg, -, hrun'⟩
    · rw [hrun'] at hrun
      cases hrun
      exact ⟨hl, rfl⟩
    · rw [hrun'] at hrun
      cases hrun
  have hspans := Toks.spans hb (Nat.zero_le _) (.inl rfl) hts
  have hbytes : ∀ i, nulterminate c (buffer line) i = if i ∈ (strings c).map Prod.snd then 0 else buffer line i :=
    fun i => by
    rw [nulterminate_eq, zeroAll_apply]
  have hspan : ∀ p ∈ strings c, Span (buffer line) line.length p.1 p.2 := fun p hp => by
    obtain ⟨t, ht, hk, rfl⟩ := line_fromWord hl p hp
    exact (hspans t ht).1 hk
  -- Behind a word stands no byte of a word, so its end is not in another one.
  have hnot : ∀ p ∈ strings c, ∀ i, Plain (buffer line i) → i ≠ p.2 := fun p hp i hi he => (hspan p hp).stop (he ▸ hi)
  refine ⟨ts, hts, hbytes, fun p hp =>
    ⟨line_fromWord hl p hp, hspan p hp, ⟨fun i hi hi' => ?_, ?_⟩, fun t ht => ⟨fun hin => ?_, fun hk hin => ?_⟩⟩⟩
  · have hplain := (hspan p hp).plain i hi hi'
    have hkeep : i ∉ (strings c).map Prod.snd := fun hm => by
      obtain ⟨p', hp', he⟩ := List.mem_map.mp hm
      exact hnot p' hp' i hplain he.symm
    rw [hbytes i, if_neg hkeep]
    exact ⟨rfl, hplain.1⟩
  · rw [hbytes p.2, if_pos (List.mem_map.mpr ⟨p, hp, rfl⟩)]
  · by_cases hk : t.kind = 97
    · exact hnot p hp p.2 (((hspans t ht).1 hk).plain p.2 (Nat.le_of_lt hin.1) hin.2) rfl
    · -- An operator has two bytes at most; the one before the end of a word is not its first.
      obtain ⟨hle, hop⟩ := (hspans t ht).2 hk
      have hlt := (hspan p hp).lt
      have hprev : p.2 - 1 = t.q := by omega
      exact hop (hprev ▸ (hspan p hp).plain (p.2 - 1) (by omega) (by omega))
  · exact hnot p hp p.2 (((hspans t ht).1 hk).plain p.2 hin.1 hin.2) rfl

/-- "a>b": the file name ends at the NUL of the line, and the argument where the operator stands. -/
def shortLine : List UInt8 := [97, 62, 98]

def shortTree : Cmd := .redir (execOf [⟨97, 0, 1⟩]) 2 3 (O_WRONLY ||| O_CREATE) 1

theorem parsecmd_short : parsecmd shortLine = .ok (shortTree, nulterminate shortTree (buffer shortLine)) := by
  have hline : parseline (buffer shortLine) shortLine.length (4 * shortLine.length + 4) 0 = .ok (shortTree, 3) := by
    decide +kernel
  have hend : ¬blanks (buffer shortLine) shortLine.length 3 ≠ shortLine.length := by decide
  rw [parsecmd_eq hline]
  simp only [Except.bind, if_neg hend]

theorem parsecmd_strings_short : ∃ ts, Tokens shortLine ts ∧
      (∀ i, nulterminate shortTree (buffer shortLine) i = if i ∈
        (strings shortTree).map Prod.snd then 0 else buffer shortLine i) ∧
      ∀ p ∈ strings shortTree, FromWord ts p ∧ Span (buffer shortLine) shortLine.length p.1 p.2 ∧
        Keeps shortLine (nulterminate shortTree (buffer shortLine)) p.1 p.2 ∧
        ∀ t ∈ ts, ¬(t.q < p.2 ∧ p.2 < t.eq) ∧ (t.kind = 97 → ¬(t.q ≤ p.2 ∧ p.2 < t.eq)) :=
  parsecmd_strings shortLine (by decide) shortTree (nulterminate shortTree (buffer shortLine)) parsecmd_short

end ArmXv6.ShellStrings
