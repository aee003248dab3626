import ArmXv6.Grep
import ArmXv6.Lib.Lines

namespace ArmXv6.GrepLines

open Lib.Bytes Lib.Moves Lib.Lines Grep

abbrev Buf : Type := Mem 1024

/-- The variables of grep and what it has written, one entry for each call of write. -/
structure State where
  buf : Buf
  m : Int
  out : List (List UInt8)

/-- The loop of strchr with so many bytes of buf left; none when it would read past them. -/
def strchr.loop (b : Buf) (c : UInt8) : Nat → Nat → Option (Option Nat)
  | 0, _ => none
  | left + 1, s =>
      if b.get s = 0 then some none
      else if b.get s = c then some (some s)
      else strchr.loop b c left (s + 1)

def strchr (b : Buf) (s : Nat) (c : UInt8) : Option (Option Nat) := strchr.loop b c (1024 - s) s

/-- The string that starts at s, if so many bytes of buf are left. -/
def text.loop (b : Buf) : Nat → Nat → List UInt8
  | 0, _ => []
  | left + 1, s => if b.get s = 0 then [] else b.get s :: text.loop b left (s + 1)

def text (b : Buf) (s : Nat) : List UInt8 := text.loop b (1024 - s) s

/-- The inner loop: p, buf and the output after it. -/
def grep.lines (pattern : List UInt8) : Nat → Nat → Buf → List (List UInt8) → Option (Nat × Buf × List (List UInt8))
  | 0, _, _, _ => none
  | fuel + 1, p, b, out =>
      match strchr b p newline with
      | none => none
      | some none => some (p, b, out)
      | some (some q) =>
          let b := put b q 0
          if «match» pattern (text b p) then
            let b := put b q newline
            grep.lines pattern fuel (q + 1) b (out ++ [b.slice p (q + 1 - p)])
          else grep.lines pattern fuel (q + 1) b out

/-- One round of the outer loop, when read has given the bytes of piece; none when it would touch bytes
outside buf. The move to the front is the one of ulib. -/
def grep.round (pattern piece : List UInt8) (g : State) : Option State :=
  if g.m < 0 then none
  else do
    let b := g.buf.setSlice g.m.toNat piece
    let m := g.m + piece.length
    let (p, b, out) ← grep.lines pattern 1025 0 b g.out
    let m := if p = 0 then 0 else m
    if 0 < m then
      let m := m - p
      some ⟨forward m.toNat 0 p b, m, out⟩
    else some ⟨b, m, out⟩

/-- All rounds; after the last piece read gives 0. -/
def grep.rounds (pattern : List UInt8) : List (List UInt8) → State → Option State
  | [], g => some g
  | piece :: pieces, g => (grep.round pattern piece g).bind (grep.rounds pattern pieces)

def start : State := ⟨Mem.zero, 0, []⟩

def grep (pattern : List UInt8) (pieces : List (List UInt8)) : Option State := grep.rounds pattern pieces start

/-- The bytes of buf from p on begin with the given ones. -/
def At (b : Buf) : Nat → List UInt8 → Prop
  | _, [] => True
  | p, x :: l => b.get p = x ∧ At b (p + 1) l

/-- From s on there is a NUL in buf, and no newline before it. -/
def Ends (b : Buf) (s : Nat) : Prop := ∃ z, s ≤ z ∧ z < 1024 ∧ b.get z = 0 ∧ ∀ i, s ≤ i → i < z → b.get i ≠ newline

variable {b b' : Buf} {p q s : Nat} {l l' r r' : List UInt8} {ls ls' : List (List UInt8)}
  {pattern : List UInt8} {out : List (List UInt8)}

theorem at_append : At b p (l ++ l') ↔ At b p l ∧ At b (p + l.length) l' := by
  induction l generalizing p with
  | nil => simp [At]
  | cons x l ih =>
      simp only [List.cons_append, At, ih, List.length_cons]
      rw [and_assoc, Nat.add_assoc, Nat.add_comm 1 l.length]

theorem At.get (h : At b p l) {i : Nat} (hi : i < l.length) : b.get (p + i) = l[i] := by
  induction l generalizing p i with
  | nil => exact absurd hi (Nat.not_lt_zero i)
  | cons x l ih =>
      cases i with
      | zero => exact h.1
      | succ i =>
          have hnext := ih h.2 (Nat.lt_of_succ_lt_succ hi)
          rwa [Nat.add_assoc, Nat.add_comm 1 i] at hnext

theorem at_of_get (h : ∀ i (hi : i < l.length), b.get (p + i) = l[i]) : At b p l := by
  induction l generalizing p with
  | nil => trivial
  | cons x l ih =>
      refine ⟨h 0 (Nat.zero_lt_succ _), ih fun i hi => ?_⟩
      have hnext := h (i + 1) (Nat.succ_lt_succ hi)
      rw [Nat.add_assoc, Nat.add_comm 1 i]
      exact hnext

theorem At.congr (h : At b p l) (hsame : ∀ i, p ≤ i → i < p + l.length → b'.get i = b.get i) : At b' p l :=
  at_of_get fun i hi => by rw [hsame (p + i) (by omega) (by omega), h.get hi]

theorem At.slice (h : At b p l) : b.slice p l.length = l := by
  apply List.ext_getElem
  · exact Mem.length_slice b p l.length
  · intro i hi hi'
    rw [Mem.getElem_slice, h.get hi']

theorem Ends.congr (h : Ends b s) (hsame : ∀ i, s ≤ i → b'.get i = b.get i) : Ends b' s := by
  obtain ⟨z, hs, hz, hnul, hno⟩ := h
  exact ⟨z, hs, hz, by rw [hsame z hs, hnul], fun i hi hiz => by rw [hsame i hi]; exact hno i hi hiz⟩

theorem strchr_pass {c : UInt8} (h : At b s l) (hfit : s + l.length ≤ 1024) (h0 : 0 ∉ l) (hc : c ∉ l) :
    strchr b s c = strchr b (s + l.length) c := by
  induction l generalizing s with
  | nil => rfl
  | cons x l ih =>
      rw [List.length_cons] at hfit
      have hx0 : x ≠ 0 := fun he => h0 (he ▸ List.mem_cons_self)
      have hxc : x ≠ c := fun he => hc (he ▸ List.mem_cons_self)
      have hrest :=
        ih h.2 (by omega) (fun hm => h0 (List.mem_cons_of_mem _ hm)) (fun hm => hc (List.mem_cons_of_mem _ hm))
      have hleft : 1024 - s = (1024 - (s + 1)) + 1 := by omega
      have hone : strchr b s c = strchr b (s + 1) c := by
        rw [strchr, hleft, strchr.loop, h.1, if_neg hx0, if_neg hxc, strchr]
      rw [hone, hrest, List.length_cons, Nat.add_assoc, Nat.add_comm 1 l.length]

theorem strchr_here {c : UInt8} (hs : s < 1024) (hget : b.get s = c) (hc : c ≠ 0) : strchr b s c = some (some s) := by
  have hleft : 1024 - s = (1024 - (s + 1)) + 1 := by omega
  rw [strchr, hleft, strchr.loop, hget, if_neg hc, if_pos rfl]

theorem strchr_ends (h : Ends b s) : strchr b s newline = some none := by
  obtain ⟨z, hs, hz, hnul, hno⟩ := h
  obtain ⟨k, rfl⟩ := Nat.exists_eq_add_of_le hs
  induction k generalizing s with
  | zero =>
      have hleft : 1024 - s = (1024 - (s + 1)) + 1 := by omega
      rw [Nat.add_zero] at hnul
      rw [strchr, hleft, strchr.loop, if_pos hnul]
  | succ k ih =>
      have hleft : 1024 - s = (1024 - (s + 1)) + 1 := by omega
      have hsum : s + (k + 1) = s + 1 + k := by omega
      rw [hsum] at hz hnul hno
      rw [strchr, hleft, strchr.loop]
      by_cases h0 : b.get s = 0
      · rw [if_pos h0]
      · rw [if_neg h0, if_neg (hno s le_rfl (by omega))]
        exact ih (by omega) hz hnul fun i hi hiz => hno i (by omega) hiz

theorem text_eq (h : At b p l) (hfit : p + l.length < 1024) (h0 : 0 ∉ l) (hend : b.get (p + l.length) = 0) :
    text b p = l := by
  induction l generalizing p with
  | nil =>
      rw [List.length_nil, Nat.add_zero] at hfit hend
      have hleft : 1024 - p = (1024 - (p + 1)) + 1 := by omega
      rw [text, hleft, text.loop, if_pos hend]
  | cons x l ih =>
      rw [List.length_cons] at hfit hend
      have hx0 : x ≠ 0 := fun he => h0 (he ▸ List.mem_cons_self)
      have hleft : 1024 - p = (1024 - (p + 1)) + 1 := by omega
      rw [text, hleft, text.loop, h.1, if_neg hx0]
      congr 1
      refine ih h.2 (by omega) (fun hm => h0 (List.mem_cons_of_mem _ hm)) ?_
      rwa [Nat.add_assoc, Nat.add_comm 1 l.length]

def found (pattern : List UInt8) (ls : List (List UInt8)) : List (List UInt8) :=
  (ls.filter («match» pattern)).map (· ++ [newline])

theorem found_append (ls ls' : List (List UInt8)) :
    found pattern (ls ++ ls') = found pattern ls ++ found pattern ls' := by
  rw [found, List.filter_append, List.map_append, found, found]

theorem found_cons (l : List UInt8) (ls : List (List UInt8)) :
    found pattern (l :: ls) = (if «match» pattern l then [l ++ [newline]] else []) ++ found pattern ls := by
  by_cases h : «match» pattern l = true <;> simp [found, h]

theorem put_put_same (h : b.get q = newline) : put (put b q 0) q newline = b := by
  apply Mem.ext
  intro i hi
  rw [get_put, get_put]
  by_cases hq : i = q
  · rw [if_pos ⟨hi, hq⟩, hq, h]
  · rw [if_neg (by omega), if_neg (by omega)]

/-- The inner loop writes the complete lines that match and stops behind the last of them. -/
theorem lines_spec (h : At b p (unlines newline ls ++ r)) (hls : ∀ l ∈ ls, newline ∉ l) (hr : newline ∉ r)
    (h0 : 0 ∉ unlines newline ls ++ r) (hends : Ends b (p + (unlines newline ls ++ r).length)) {fuel : Nat}
      (hfuel : ls.length < fuel) :
    ∃ b', grep.lines pattern fuel p b out = some (p + (unlines newline ls).length, b', out ++ found pattern ls) ∧
      ∀ i, p + (unlines newline ls).length ≤ i → b'.get i = b.get i := by
  induction ls generalizing p b out fuel with
  | nil =>
      obtain ⟨fuel, rfl⟩ : ∃ f, fuel = f + 1 := ⟨fuel - 1, by omega⟩
      refine ⟨b, ?_, fun _ _ => rfl⟩
      rw [unlines_nil, List.nil_append] at h h0 hends
      have hfit : p + r.length ≤ 1024 := by
        obtain ⟨z, hz, hz', -⟩ := hends
        omega
      have hno : strchr b p newline = some none := by
        rw [strchr_pass h hfit h0 hr]
        exact strchr_ends hends
      simp [grep.lines, hno, found]
  | cons l ls ih =>
      obtain ⟨fuel, rfl⟩ : ∃ f, fuel = f + 1 := ⟨fuel - 1, by omega⟩
      have hsplit : unlines newline (l :: ls) ++ r = l ++ newline :: (unlines newline ls ++ r) := by
        rw [unlines_cons, List.append_assoc, List.cons_append]
      rw [hsplit] at h h0 hends
      obtain ⟨hl, hq, hrest⟩ := at_append.mp h
      rw [List.length_append, List.length_cons] at hends
      have hq' : p + l.length < 1024 := by
        obtain ⟨z, hz, hz', -⟩ := hends
        omega
      have hl0 : 0 ∉ l := fun hm => h0 (List.mem_append_left _ hm)
      have hrest0 : 0 ∉ unlines newline ls ++ r := fun hm => h0 (List.mem_append_right _ (List.mem_cons_of_mem _ hm))
      have hstr : strchr b p newline = some (some (p + l.length)) := by
        rw [strchr_pass hl hq'.le hl0 (hls l List.mem_cons_self)]
        exact strchr_here hq' hq (by decide)
      have hother : ∀ i, i ≠ p + l.length → (put b (p + l.length) 0).get i = b.get i := fun i hi => by
        rw [get_put, if_neg fun hc => hi hc.2]
      have htext : text (put b (p + l.length) 0) p = l := by
        refine text_eq (hl.congr fun i _ hi => hother i (by omega)) hq' hl0 ?_
        rw [get_put, if_pos ⟨hq', rfl⟩]
      have hline : b.slice p (p + l.length + 1 - p) = l ++ [newline] := by
        have hat : At b p (l ++ [newline]) := at_append.mpr ⟨hl, hq, trivial⟩
        have hlen : p + l.length + 1 - p = (l ++ [newline]).length := by
          rw [List.length_append, List.length_singleton]
          omega
        rw [hlen, hat.slice]
      have hnext :
          p + l.length + 1 + (unlines newline ls ++ r).length =
          p + (l.length + ((unlines newline ls ++ r).length + 1)) := by omega
      rw [← hnext] at hends
      -- Whether the newline is put back or not, the bytes behind it are the old ones.
      have hgo : ∀ c out', (∀ i, i ≠ p + l.length → c.get i = b.get i) →
          ∃ b', grep.lines pattern fuel (p + l.length + 1) c out' =
              some (p + (unlines newline (l :: ls)).length, b', out' ++ found pattern ls) ∧
            ∀ i, p + (unlines newline (l :: ls)).length ≤ i → b'.get i = b.get i := by
        intro c out' hc
        have hc' : ∀ i, p + l.length + 1 ≤ i → c.get i = b.get i := fun i hi => hc i (by omega)
        obtain ⟨b', hrun, hkeep⟩ := @ih c (p + l.length + 1) out' (hrest.congr fun i hi _ => hc' i hi)
          (fun k hk => hls k (List.mem_cons_of_mem _ hk)) hrest0 (hends.congr fun i hi => hc' i (by omega)) fuel
          (by rw [List.length_cons] at hfuel; omega)
        have hlen : p + l.length + 1 + (unlines newline ls).length = p + (unlines newline (l :: ls)).length := by
          rw [unlines_cons, List.length_append, List.length_cons]
          omega
        rw [hlen] at hrun hkeep
        refine ⟨b', hrun, fun i hi => ?_⟩
        rw [hkeep i hi]
        refine hc' i ?_
        rw [← hlen] at hi
        omega
      simp only [grep.lines, hstr, htext, put_put_same hq, hline]
      rw [found_cons]
      by_cases hm : «match» pattern l = true
      · rw [if_pos hm, if_pos hm, ← List.append_assoc]
        exact hgo b _ fun _ _ => rfl
      · rw [if_neg hm, if_neg hm, List.nil_append]
        exact hgo _ _ hother

/-- The bytes that one call of read may give. -/
def Offered (g : State) (piece : List UInt8) : Prop := piece ≠ [] ∧ g.m + piece.length ≤ 1024

/-- The piece completes a line, and what an earlier round left behind it in buf is read as the end of a
string, not as a line. -/
def Clean (g : State) (piece : List UInt8) : Prop := newline ∈ piece ∧ Ends g.buf (g.m + piece.length).toNat

/-- Every round of the run begins with P. -/
def Always (P : State → List UInt8 → Prop) (pattern : List UInt8) : List (List UInt8) → State → Prop
  | [], _ => True
  | piece :: pieces, g => P g piece ∧ ∀ g', grep.round pattern piece g = some g' → Always P pattern pieces g'

/-- The lines ls have been read completely and r of the next one. -/
structure Faithful (pattern : List UInt8) (ls : List (List UInt8)) (r : List UInt8) (g : State) : Prop where
  rest : At g.buf 0 r
  carried : g.m = r.length
  out : g.out = found pattern ls

theorem get_setSlice_of_outside (b : Buf) (off : Nat) (l : List UInt8) {i : Nat} (hi : i < off ∨ off + l.length ≤ i) :
    (b.setSlice off l).get i = b.get i := by
  rw [Mem.get_setSlice, if_neg (by omega)]

theorem at_setSlice (hfit : p + l.length ≤ 1024) : At (b.setSlice p l) p l := by
  refine at_of_get fun i hi => ?_
  rw [Mem.get_setSlice, if_pos (by omega), Nat.add_sub_cancel_left, List.getD_eq_getElem?_getD,
    List.getElem?_eq_getElem hi,
    Option.getD_some]

theorem at_forward (h : At b p l) (hfit : p + l.length ≤ 1024) : At (forward l.length 0 p b) 0 l := by
  refine at_of_get fun i hi => ?_
  rw [forward_eq_copy (.inl (Nat.zero_le p)) hfit, get_copy, if_pos (by omega), Nat.zero_add, Nat.sub_zero, h.get hi]

/-- A clean round reads the lines that its piece completes and keeps the beginning of the next one. -/
theorem round_spec {g : State} {piece : List UInt8} (h : Faithful pattern ls r g) (ho : Offered g piece)
    (hc : Clean g piece)
    (h0 : 0 ∉ r ++ piece) (he : r ++ piece = unlines newline ls' ++ r') (hls : ∀ l ∈ ls', newline ∉ l)
      (hr : newline ∉ r') :
    ∃ g', grep.round pattern piece g = some g' ∧ Faithful pattern (ls ++ ls') r' g' := by
  have hm : g.m.toNat = r.length := by rw [h.carried, Int.toNat_natCast]
  have hlen : (r ++ piece).length = r.length + piece.length := List.length_append
  have hfit : r.length + piece.length ≤ 1024 := by
    have hle := ho.2
    rw [h.carried] at hle
    omega
  have hend : (g.m + piece.length).toNat = 0 + (r ++ piece).length := by
    rw [h.carried, hlen]
    omega
  have hat : At (g.buf.setSlice r.length piece) 0 (r ++ piece) := by
    refine at_append.mpr ⟨h.rest.congr fun i _ hi => get_setSlice_of_outside _ _ _ (by omega), ?_⟩
    rw [Nat.zero_add]
    exact at_setSlice hfit
  have hends : Ends (g.buf.setSlice r.length piece) (0 + (r ++ piece).length) := by
    rw [← hend]
    exact hc.2.congr fun i hi => get_setSlice_of_outside _ _ _ (by omega)
  rw [he] at hat hends h0
  have hcount : ls'.length < 1025 := by
    have hle := length_le_unlines newline ls'
    have hsum := congrArg List.length he
    rw [hlen, List.length_append] at hsum
    omega
  obtain ⟨b', hrun, hkeep⟩ : ∃ b', grep.lines pattern 1025 0 (g.buf.setSlice r.length piece) g.out =
        some (0 + (unlines newline ls').length, b', g.out ++ found pattern ls') ∧
      ∀ i, 0 + (unlines newline ls').length ≤ i → b'.get i = (g.buf.setSlice r.length piece).get i :=
    lines_spec hat hls hr h0 hends hcount
  rw [Nat.zero_add] at hrun hkeep
  have hsum : r.length + piece.length = (unlines newline ls').length + r'.length := by
    rw [← hlen, he, List.length_append]
  have hpos : 0 < (unlines newline ls').length := by
    refine List.length_pos_of_ne_nil fun hnil => hr ?_
    rw [hnil, List.nil_append] at he
    rw [← he]
    exact List.mem_append_right _ hc.1
  have hcarry : (g.m + piece.length - (unlines newline ls').length : Int) = r'.length := by
    rw [h.carried]
    omega
  have hat' : At b' (unlines newline ls').length r' := by
    have htail := (at_append.mp hat).2
    rw [Nat.zero_add] at htail
    exact htail.congr fun i hi _ => hkeep i hi
  refine ⟨⟨forward r'.length 0 (unlines newline ls').length b', r'.length, g.out ++ found pattern ls'⟩, ?_, ?_⟩
  · have hneg : ¬g.m < 0 := by
      rw [h.carried]
      omega
    have hsome : 0 < g.m + piece.length := by
      rw [h.carried]
      omega
    simp only [grep.round, if_neg hneg, hm, Option.bind_eq_bind, hrun, Option.bind_some, if_neg hpos.ne',
      if_pos hsome, hcarry,
      Int.toNat_natCast]
  · exact ⟨at_forward hat' (by omega), rfl, by rw [h.out, found_append]⟩

/-- However the reads split the input, after clean rounds grep has written exactly the lines read so far
that match, and holds the beginning of the next line in front of buf. -/
theorem rounds_spec {pieces : List (List UInt8)} {g : State} (h : Faithful pattern ls r g)
    (ho : Always Offered pattern pieces g)
    (hc : Always Clean pattern pieces g) (h0 : 0 ∉ r ++ pieces.flatten) (hr : newline ∉ r)
    (he : r ++ pieces.flatten = unlines newline ls' ++ r') (hls : ∀ l ∈ ls', newline ∉ l) (hr' : newline ∉ r') :
    ∃ g', grep.rounds pattern pieces g = some g' ∧ Faithful pattern (ls ++ ls') r' g' := by
  induction pieces generalizing ls r g ls' with
  | nil =>
      rw [List.flatten_nil, List.append_nil] at he
      have hu :=
        lines_unique (fun l hl => absurd hl List.not_mem_nil) hls hr hr' (show unlines newline [] ++ r = _ from he)
      obtain ⟨rfl, rfl⟩ := hu
      exact ⟨g, rfl, by rwa [List.append_nil]⟩
  | cons piece pieces ih =>
      rw [List.flatten_cons, ← List.append_assoc] at he h0
      obtain ⟨ks, k, hk, hks, hk'⟩ := exists_lines newline (r ++ piece)
      have h0k : 0 ∉ r ++ piece := fun hm => h0 (List.mem_append_left _ hm)
      obtain ⟨g₁, hrun, hf⟩ := round_spec h ho.1 hc.1 h0k hk hks hk'
      obtain ⟨ms, e, hm, hms, he'⟩ := exists_lines newline (k ++ pieces.flatten)
      have h0m : 0 ∉ k ++ pieces.flatten := by
        intro hin
        refine h0 ?_
        rw [hk, List.append_assoc]
        exact List.mem_append_right _ hin
      have hall : unlines newline (ks ++ ms) ++ e = unlines newline ls' ++ r' := by
        rw [← he, hk, unlines_append, List.append_assoc, List.append_assoc, ← hm]
      have hboth : ∀ l ∈ ks ++ ms, newline ∉ l := fun l hl => (List.mem_append.mp hl).elim (hks l) (hms l)
      obtain ⟨rfl, rfl⟩ := lines_unique hboth hls he' hr' hall
      obtain ⟨g', hrun', hf'⟩ := ih hf (ho.2 g₁ hrun) (hc.2 g₁ hrun) h0m hk' hm hms
      refine ⟨g', ?_, by rwa [← List.append_assoc]⟩
      rw [grep.rounds, hrun, Option.bind_some, hrun']

/-- Where every round is clean, grep touches no byte outside buf and has written, after the pieces read so
far, exactly their complete lines that match, each once, with its newline and in order. -/
theorem grep_faithful (pattern : List UInt8) (pieces ls : List (List UInt8)) (r : List UInt8) (h0 : 0 ∉ pieces.flatten)
    (he : pieces.flatten = unlines newline ls ++ r) (hls : ∀ l ∈ ls, newline ∉ l) (hr : newline ∉ r)
    (ho : Always Offered pattern pieces start) (hc : Always Clean pattern pieces start) :
    ∃ g, grep pattern pieces = some g ∧ g.out = found pattern ls := by
  have hstart : Faithful pattern [] [] start := ⟨trivial, rfl, rfl⟩
  obtain ⟨g, hrun, hf⟩ := rounds_spec hstart ho hc h0 List.not_mem_nil he hls hr
  exact ⟨g, hrun, hf.out⟩

-- The line "xa" in two pieces, the first of which ends the line "a" before it.
theorem grep_faithful_carried : ∃ g, grep [97] [[97, 10, 120], [97, 10]] = some g ∧
    g.out = found [97] [[97], [120, 97]] := by
  have hround : (grep.round [97] [97, 10, 120] start).map (fun g => (g.m, g.buf.get 3)) = some (1, 0) := by
    decide +kernel
  refine grep_faithful [97] [[97, 10, 120], [97, 10]] [[97], [120, 97]] [] (by decide) rfl
    (by decide) List.not_mem_nil ?_ ?_
  · refine ⟨⟨by decide, by decide⟩, fun g' hg => ⟨⟨by decide, ?_⟩, fun _ _ => trivial⟩⟩
    rw [hg] at hround
    rw [(Prod.mk.inj (Option.some.inj hround)).1]
    decide
  · refine ⟨⟨by decide, 3, by decide, by decide, rfl, fun i hi hi' => absurd hi' (not_lt.mpr hi)⟩, fun g' hg =>
      ⟨?_, fun _ _ => trivial⟩⟩
    rw [hg] at hround
    obtain ⟨hm, hend⟩ := Prod.mk.inj (Option.some.inj hround)
    refine ⟨by decide, 3, ?_, by decide, hend, fun i hi hi' => ?_⟩
    · rw [hm]
      decide
    · rw [hm] at hi
      exact absurd hi' (not_lt.mpr hi)

-- The line "a" in two pieces: without a newline in the first one grep forgets it.
theorem grep_forgets : (Always Offered [97] [[97], [10]] start ∧ [[97], [10]].flatten = unlines newline [[97]]) ∧
    ¬∃ g, grep [97] [[97], [10]] = some g ∧ g.out = found [97] [[97]] := by
  have hround : (grep.round [97] [97] start).map State.m = some 0 := by decide +kernel
  have hout : (grep [97] [[97], [10]]).map State.out = some [] := by decide +kernel
  refine ⟨⟨⟨⟨by decide, by decide⟩, fun g' hg => ?_⟩, rfl⟩, ?_⟩
  · rw [hg] at hround
    have hm : g'.m = 0 := Option.some.inj hround
    refine ⟨⟨by decide, ?_⟩, fun _ _ => trivial⟩
    rw [hm]
    decide
  · rintro ⟨g, hg, ho⟩
    rw [hg] at hout
    have hnone : found [97] [[97]] = [] := ho ▸ Option.some.inj hout
    exact absurd hnone (by decide)

end ArmXv6.GrepLines
