import ArmXv6.Param
import ArmXv6.Lib.Fifo

namespace ArmXv6.Console

open Lib.Fifo Param

def INPUT_BUF : Nat := 512

def ctrl (x : Char) : UInt8 := UInt8.ofNat (x.toNat - 64)

def newline : UInt8 := 10

def carriageReturn : UInt8 := 13

def delete : UInt8 := 0x7f

/-- The ring of the console with its read, write and edit index. -/
structure Input where
  buf : Nat → UInt8
  r : Nat
  w : Nat
  e : Nat

/-- The loop of control-U, which takes back no more than what is behind the write index. -/
def killLine : Nat → Input → Input
  | 0, i => i
  | n + 1, i =>
      if i.e ≠ i.w ∧ i.buf (pred (2 ^ 32) i.e % INPUT_BUF) ≠ newline then killLine n { i with e := pred (2 ^ 32) i.e }
      else i

/-- The new character at the edit index. -/
def insert (b : UInt8) (i : Input) : Input :=
  { i with buf := Function.update i.buf (i.e % INPUT_BUF) b, e := uint (i.e + 1) }

/-- What consoleintr does with one character, and whether it wakes the readers. The process
listing of control-L and the echo leave the ring alone. -/
def consoleintr.char (c : UInt8) (i : Input) : Input × Bool :=
  if c = ctrl 'L' then (i, false)
  else if c = ctrl 'U' then (killLine (count (2 ^ 32) i.w i.e) i, false)
  else if c = ctrl 'H' ∨ c = delete then (if i.e ≠ i.w then { i with e := pred (2 ^ 32) i.e } else i, false)
  else if c ≠ 0 ∧ count (2 ^ 32) i.r i.e < INPUT_BUF then
    let b := if c = carriageReturn then newline else c
    let i := insert b i
    if b = newline ∨ b = ctrl 'D' ∨ i.e = uint (i.r + INPUT_BUF) then ({ i with w := i.e }, true) else (i, false)
  else (i, false)

/-- Why the loop of consoleread stops. -/
inductive Halt
  | done
  | empty

/-- The loop of consoleread for n more bytes, up to a sleep; first says that this call has
stored nothing so far. A control-D behind other bytes is put back. -/
def consoleread.loop : Nat → Bool → Input → Halt × List UInt8 × Input
  | 0, _, i => (.done, [], i)
  | n + 1, first, i =>
      if i.r = i.w then (.empty, [], i)
      else
        let c := i.buf (i.r % INPUT_BUF)
        let i := { i with r := uint (i.r + 1) }
        if c = ctrl 'D' then (.done, [], if first then i else { i with r := pred (2 ^ 32) i.r })
        else if c = newline then (.done, [c], i)
        else
          let x := consoleread.loop n false i
          (x.1, c :: x.2.1, x.2.2)

/-- A process in consoleread knows how many bytes it was asked for and has stored some. -/
inductive Reader
  | idle
  | reading (n : Int) (got : List UInt8) (asleep : Bool)

def wake : Reader → Reader
  | .idle => .idle
  | .reading n got _ => .reading n got false

structure Sys where
  input : Input
  users : Nat → Reader
  killed : Nat → Bool

/-- A character with the room that the ring has for it, a byte stored for a reader, and the
result of a call with all it stored. -/
inductive Event
  | key (c : UInt8) (room : Nat)
  | given (b : UInt8)
  | read (u : Nat) (n r : Int) (bytes : List UInt8)

def consoleintr : List UInt8 → Sys → Sys × List Event
  | [], s => (s, [])
  | c :: cs, s =>
      let x := consoleintr.char c s.input
      let y := consoleintr cs { s with input := x.1, users := if x.2 then wake ∘ s.users else s.users }
      (y.1, .key c (INPUT_BUF - count (2 ^ 32) s.input.r s.input.e) :: y.2)

/-- consoleread from its start, or from its sleep. -/
def consoleread (s : Sys) (u : Nat) (n : Int) (got : List UInt8) : Sys × List Event :=
  let x := consoleread.loop (n.toNat - got.length) got.isEmpty s.input
  let t := x.2.1.map .given
  match x.1 with
  | .done =>
      ({ s with input := x.2.2, users := Function.update s.users u .idle },
        t ++ [.read u n (got ++ x.2.1).length (got ++ x.2.1)])
  | .empty =>
      if s.killed u then
        ({ s with input := x.2.2, users := Function.update s.users u .idle }, t ++ [.read u n (-1) (got ++ x.2.1)])
      else ({ s with input := x.2.2, users := Function.update s.users u (.reading n (got ++ x.2.1) true) }, t)

inductive Action
  | intr (cs : List UInt8)
  | read (u : Nat) (n : Int)
  | resume (u : Nat)
  | kill (u : Nat)

def step (s : Sys) : Action → Option (Sys × List Event)
  | .intr cs => some (consoleintr cs s)
  | .read u n =>
      match s.users u with
      | .idle => some (consoleread s u n [])
      | .reading .. => none
  | .resume u =>
      match s.users u with
      | .reading n got false => some (consoleread s u n got)
      | _ => none
  | .kill u =>
      some
        ({ s with killed := Function.update s.killed u true, users := Function.update s.users u (wake (s.users u)) },
        [])

inductive Reaches : Sys → List Event → Prop
  | start (buf : Nat → UInt8) (killed : Nat → Bool) : Reaches ⟨⟨buf, 0, 0, 0⟩, fun _ => .idle, killed⟩ []
  | step {s s' : Sys} {t e : List Event} {a : Action} (h : Reaches s t) (hs : step s a = some (s', e)) :
      Reaches s' (t ++ e)

/-- The effect of a character on the committed bytes and the line that is being edited, with
room for so many more bytes. -/
def edit (room : Nat) (c : UInt8) (x : List UInt8 × List UInt8) : List UInt8 × List UInt8 :=
  if c = ctrl 'L' then x
  else if c = ctrl 'U' then (x.1, [])
  else if c = ctrl 'H' ∨ c = delete then (x.1, x.2.dropLast)
  else if c = 0 ∨ room = 0 then x
  else
    let b := if c = carriageReturn then newline else c
    if b = newline ∨ b = ctrl 'D' ∨ room = 1 then (x.1 ++ x.2 ++ [b], []) else (x.1, x.2 ++ [b])

/-- The committed stream and the current line after a run. -/
def edited (t : List Event) : List UInt8 × List UInt8 :=
  t.foldl (fun x e => match e with
    | .key c room => edit room c x
    | _ => x) ([], [])

/-- The bytes that were handed to readers. -/
def handed (t : List Event) : List UInt8 :=
  t.filterMap fun e => match e with
    | .given b => some b
    | _ => none

/-- The committed bytes that are not read yet. -/
def pending (i : Input) : List UInt8 := contents INPUT_BUF (2 ^ 32) i.buf i.r i.w

/-- The bytes that can still be edited. -/
def line (i : Input) : List UInt8 := contents INPUT_BUF (2 ^ 32) i.buf i.w i.e

structure Good (i : Input) : Prop where
  r : i.r < 2 ^ 32
  w : i.w < 2 ^ 32
  e : i.e < 2 ^ 32
  split : count (2 ^ 32) i.r i.w + count (2 ^ 32) i.w i.e = count (2 ^ 32) i.r i.e
  fits : count (2 ^ 32) i.r i.e ≤ INPUT_BUF
  plain : ∀ b ∈ line i, b ≠ newline

variable {s s' : Sys} {t e : List Event} {i : Input} {b c : UInt8} {u n : Nat}

theorem buf_dvd : INPUT_BUF ∣ 2 ^ 32 := by decide

theorem buf_lt : INPUT_BUF < 2 ^ 32 := by decide

theorem Good.whole (h : Good i) : contents INPUT_BUF (2 ^ 32) i.buf i.r i.e = pending i ++ line i :=
  contents_append i.buf buf_dvd h.r h.w h.split

theorem pending_setE (x : Nat) : pending { i with e := x } = pending i := rfl

theorem line_setR (x : Nat) : line { i with r := x } = line i := rfl

theorem Good.back (h : Good i) (hne : i.e ≠ i.w) :
    Good { i with e := pred (2 ^ 32) i.e } ∧
      line i = line { i with e := pred (2 ^ 32) i.e } ++ [i.buf (pred (2 ^ 32) i.e % INPUT_BUF)] := by
  have hw := count_pred h.w h.e (Ne.symm hne)
  have hre : i.r ≠ i.e := by
    intro he
    have hs := h.split
    rw [(count_eq_zero h.r h.e).2 he] at hs
    omega
  have hr := count_pred h.r h.e hre
  have hs := h.split
  have hf := h.fits
  have hl : line i = line { i with e := pred (2 ^ 32) i.e } ++ [i.buf (pred (2 ^ 32) i.e % INPUT_BUF)] :=
    contents_pred i.buf buf_dvd h.w h.e buf_lt (Ne.symm hne) (by omega)
  refine ⟨⟨h.r, h.w, Nat.mod_lt _ (by decide), ?_, ?_, fun b hb => h.plain b ?_⟩, hl⟩
  · change count (2 ^ 32) i.r i.w + count (2 ^ 32) i.w (pred (2 ^ 32) i.e) = count (2 ^ 32) i.r (pred (2 ^ 32) i.e)
    omega
  · change count (2 ^ 32) i.r (pred (2 ^ 32) i.e) ≤ INPUT_BUF
    omega
  · rw [hl]
    exact List.mem_append_left _ hb

/-- There is no newline in the line, so control-U takes back all of it. -/
theorem killLine_spec (h : Good i) (hn : n = count (2 ^ 32) i.w i.e) :
    Good (killLine n i) ∧ pending (killLine n i) = pending i ∧ line (killLine n i) = [] := by
  induction n generalizing i with
  | zero =>
      refine ⟨h, rfl, ?_⟩
      have : (line i).length = 0 := (length_contents _ _ _).trans hn.symm
      exact List.eq_nil_of_length_eq_zero this
  | succ n ih =>
      have hne : i.e ≠ i.w := fun he => by
        rw [(count_eq_zero h.w h.e).2 he.symm] at hn
        omega
      obtain ⟨hg, hl⟩ := h.back hne
      have hb : i.buf (pred (2 ^ 32) i.e % INPUT_BUF) ≠ newline :=
        h.plain _ (by rw [hl]; exact List.mem_append_right _ (List.mem_singleton_self _))
      have hc : n = count (2 ^ 32) i.w (pred (2 ^ 32) i.e) := by
        have := count_pred h.w h.e (Ne.symm hne)
        omega
      obtain ⟨h₁, h₂, h₃⟩ := ih hg hc
      rw [killLine, if_pos ⟨hne, hb⟩]
      exact ⟨h₁, h₂.trans (pending_setE _), h₃⟩

theorem insert_spec (h : Good i) (hroom : count (2 ^ 32) i.r i.e < INPUT_BUF) :
    (insert b i).r = i.r ∧ (insert b i).w = i.w ∧ (insert b i).e < 2 ^ 32 ∧
      count (2 ^ 32) i.r (insert b i).e = count (2 ^ 32) i.r i.e + 1 ∧
      count (2 ^ 32) i.w (insert b i).e = count (2 ^ 32) i.w i.e + 1 ∧
      pending (insert b i) = pending i ∧ line (insert b i) = line i ++ [b] := by
  have hlt := buf_lt
  have hs := h.split
  have hr : count (2 ^ 32) i.r (uint (i.e + 1)) = count (2 ^ 32) i.r i.e + 1 := count_push h.r h.e (by omega)
  have hw : count (2 ^ 32) i.w (uint (i.e + 1)) = count (2 ^ 32) i.w i.e + 1 := count_push h.w h.e (by omega)
  refine ⟨rfl, rfl, uint_lt _, hr, hw, ?_⟩
  have hroom' : count (2 ^ 32) i.w i.e < INPUT_BUF := by omega
  have hline : line (insert b i) = line i ++ [b] := contents_push i.buf b buf_dvd h.w h.e buf_lt hroom'
  have hall : contents INPUT_BUF (2 ^ 32) (insert b i).buf i.r (uint (i.e + 1)) =
      contents INPUT_BUF (2 ^ 32) i.buf i.r i.e ++ [b] := contents_push i.buf b buf_dvd h.r h.e buf_lt hroom
  have hsplit :=
    contents_append (N := INPUT_BUF) (M := 2 ^ 32) (e := uint (i.e + 1)) (insert b i).buf buf_dvd h.r h.w (by omega)
  -- what is not in the line is what was there before
  rw [hall, h.whole, List.append_assoc, ← hline] at hsplit
  exact ⟨(List.append_cancel_right hsplit).symm, hline⟩

/-- What one character does to the ring is what it does to the lines. -/
structure Typed (c : UInt8) (i i' : Input) (woken : Bool) : Prop where
  good : Good i'
  r : i'.r = i.r
  w : woken = false → i'.w = i.w
  edit : ∀ D, edit (INPUT_BUF - count (2 ^ 32) i.r i.e) c (D ++ pending i, line i) = (D ++ pending i', line i')

theorem killLine_fields (n : Nat) (i : Input) : (killLine n i).r = i.r ∧ (killLine n i).w = i.w := by
  induction n generalizing i with
  | zero => exact ⟨rfl, rfl⟩
  | succ n ih =>
      rw [killLine]
      split
      · exact ih _
      · exact ⟨rfl, rfl⟩

theorem typed_kill (h : Good i) : Typed (ctrl 'U') i (killLine (count (2 ^ 32) i.w i.e) i) false := by
  obtain ⟨hg, hp, hl⟩ := killLine_spec h rfl
  obtain ⟨hr, hw⟩ := killLine_fields (count (2 ^ 32) i.w i.e) i
  refine ⟨hg, hr, fun _ => hw, fun D => ?_⟩
  rw [edit, if_neg (by decide), if_pos rfl, hp, hl]

theorem typed_back (h : Good i) (hc : c = ctrl 'H' ∨ c = delete) :
    Typed c i (if i.e ≠ i.w then { i with e := pred (2 ^ 32) i.e } else i) false := by
  have hL : c ≠ ctrl 'L' := by rcases hc with rfl | rfl <;> decide
  have hU : c ≠ ctrl 'U' := by rcases hc with rfl | rfl <;> decide
  by_cases hne : i.e ≠ i.w
  · obtain ⟨hg, hl⟩ := h.back hne
    rw [if_pos hne]
    refine ⟨hg, rfl, fun _ => rfl, fun D => ?_⟩
    have hp : pending { i with e := pred (2 ^ 32) i.e } = pending i := pending_setE _
    rw [edit, if_neg hL, if_neg hU, if_pos hc, hl, List.dropLast_concat, hp]
  · have hl : line i = [] := by
      rw [not_not] at hne
      unfold line
      rw [hne]
      exact contents_self _ h.w
    rw [if_neg hne]
    refine ⟨h, rfl, fun _ => rfl, fun D => ?_⟩
    rw [edit, if_neg hL, if_neg hU, if_pos hc, hl, List.dropLast_nil]

theorem good_commit (hr : i.r < 2 ^ 32) (he : i.e < 2 ^ 32) (hf : count (2 ^ 32) i.r i.e ≤ INPUT_BUF) :
    Good { i with w := i.e } ∧ line { i with w := i.e } = [] := by
  have hline : line { i with w := i.e } = [] := contents_self _ he
  refine ⟨⟨hr, he, he, ?_, hf, fun b hb => ?_⟩, hline⟩
  · change count (2 ^ 32) i.r i.e + count (2 ^ 32) i.e i.e = count (2 ^ 32) i.r i.e
    rw [count_self he, Nat.add_zero]
  · rw [hline] at hb
    cases hb

theorem typed_insert (h : Good i) (hL : c ≠ ctrl 'L') (hU : c ≠ ctrl 'U') (hH : ¬(c = ctrl 'H' ∨ c = delete))
    (h0 : c ≠ 0)
    (hroom : count (2 ^ 32) i.r i.e < INPUT_BUF) (hb : b = if c = carriageReturn then newline else c) :
    let x := if b = newline ∨ b = ctrl 'D' ∨ (insert b i).e = uint ((insert b i).r + INPUT_BUF)
      then ({ insert b i with w := (insert b i).e }, true) else (insert b i, false)
    Typed c i x.1 x.2 := by
  obtain ⟨hr, hw, he, hcr, hcw, hp, hl⟩ := insert_spec (b := b) h hroom
  have hroom0 : ¬(c = 0 ∨ INPUT_BUF - count (2 ^ 32) i.r i.e = 0) := by
    rintro (h1 | h1)
    · exact h0 h1
    · omega
  have hfull : (insert b i).e = uint ((insert b i).r + INPUT_BUF) ↔ INPUT_BUF - count (2 ^ 32) i.r i.e = 1 := by
    have hiff : (insert b i).e = uint (i.r + INPUT_BUF) ↔ count (2 ^ 32) i.r (insert b i).e = INPUT_BUF :=
      full_iff h.r he buf_lt
    rw [hr, hiff, hcr]
    omega
  have hsplit := h.split
  by_cases hc : b = newline ∨ b = ctrl 'D' ∨ (insert b i).e = uint ((insert b i).r + INPUT_BUF)
  · obtain ⟨hg, hnil⟩ := good_commit (i := insert b i) (hr ▸ h.r) he (by rw [hr, hcr]; omega)
    simp only [if_pos hc]
    refine ⟨hg, hr, (fun hf => by cases hf), fun D => ?_⟩
    have hall : pending { insert b i with w := (insert b i).e } = pending i ++ (line i ++ [b]) := by
      rw [← hp, ← hl]
      exact contents_append (insert b i).buf buf_dvd (hr ▸ h.r) (hw ▸ h.w) (by rw [hr, hw, hcr, hcw]; omega)
    rw [hfull] at hc
    simp only [edit, if_neg hL, if_neg hU, if_neg hH, if_neg hroom0, ← hb, if_pos hc, hnil, hall, List.append_assoc]
  · simp only [if_neg hc]
    refine ⟨⟨hr ▸ h.r, hw ▸ h.w, he, ?_, ?_, ?_⟩, hr, fun _ => hw, fun D => ?_⟩
    · rw [hr, hw, hcr, hcw]
      omega
    · rw [hr, hcr]
      omega
    · intro x hx
      rw [hl] at hx
      rcases List.mem_append.1 hx with hx | hx
      · exact h.plain x hx
      · rw [List.mem_singleton.1 hx]
        exact fun hn => hc (.inl hn)
    · rw [hfull] at hc
      simp only [edit, if_neg hL, if_neg hU, if_neg hH, if_neg hroom0, ← hb, if_neg hc, hp, hl]

theorem char_spec (h : Good i) (c : UInt8) : Typed c i (consoleintr.char c i).1 (consoleintr.char c i).2 := by
  unfold consoleintr.char
  by_cases hL : c = ctrl 'L'
  · rw [if_pos hL]
    exact ⟨h, rfl, fun _ => rfl, fun D => by rw [edit, if_pos hL]⟩
  rw [if_neg hL]
  by_cases hU : c = ctrl 'U'
  · subst hU
    rw [if_pos rfl]
    exact typed_kill h
  rw [if_neg hU]
  by_cases hH : c = ctrl 'H' ∨ c = delete
  · rw [if_pos hH]
    exact typed_back h hH
  rw [if_neg hH]
  by_cases hroom : c ≠ 0 ∧ count (2 ^ 32) i.r i.e < INPUT_BUF
  · rw [if_pos hroom]
    exact typed_insert h hL hU hH hroom.1 hroom.2 rfl
  · rw [if_neg hroom]
    refine ⟨h, rfl, fun _ => rfl, fun D => ?_⟩
    have hdrop : c = 0 ∨ INPUT_BUF - count (2 ^ 32) i.r i.e = 0 := by
      by_contra hn
      rw [not_or] at hn
      exact hroom ⟨hn.1, by omega⟩
    rw [edit, if_neg hL, if_neg hU, if_neg hH, if_pos hdrop]

/-- What the loop of consoleread took: bytes without control-D, or one control-D. -/
structure Read (n : Nat) (first : Bool) (i : Input) (halt : Halt) (out : List UInt8) (i' : Input) : Prop where
  good : Good i'
  line : line i' = line i
  wait : halt = .empty → i'.r = i'.w
  taken : pending i = out ++ pending i' ∨ first = true ∧ out = [] ∧ halt = .done ∧ pending i = ctrl 'D' :: pending i'
  clean : ctrl 'D' ∉ out
  short : out.length ≤ n
  oneLine : newline ∉ out.dropLast
  stay : halt = .empty → newline ∉ out ∧ out.length < n
  ended : halt = .done → out.length = n ∨ out.getLast? = some newline ∨
    (first = false ∨ out ≠ []) ∧ (pending i').head? = some (ctrl 'D') ∨ first = true ∧ out = [] ∧
      pending i = ctrl 'D' :: pending i'

theorem Good.pop (h : Good i) (hne : i.r ≠ i.w) :
    Good { i with r := uint (i.r + 1) } ∧
      pending i = i.buf (i.r % INPUT_BUF) :: pending { i with r := uint (i.r + 1) } := by
  have hs := h.split
  have hf := h.fits
  have hw : count (2 ^ 32) i.r i.w = count (2 ^ 32) (uint (i.r + 1)) i.w + 1 := count_pop h.r h.w hne
  have hre : i.r ≠ i.e := fun he => by
    rw [(count_eq_zero h.r h.e).2 he] at hs
    omega
  have he : count (2 ^ 32) i.r i.e = count (2 ^ 32) (uint (i.r + 1)) i.e + 1 := count_pop h.r h.e hre
  refine ⟨⟨uint_lt _, h.w, h.e, ?_, ?_, h.plain⟩, contents_pop i.buf buf_dvd h.r h.w hne⟩
  · change count (2 ^ 32) (uint (i.r + 1)) i.w + count (2 ^ 32) i.w i.e = count (2 ^ 32) (uint (i.r + 1)) i.e
    omega
  · change count (2 ^ 32) (uint (i.r + 1)) i.e ≤ INPUT_BUF
    omega

theorem mem_dropLast_cons {x a : UInt8} {l : List UInt8} (h : x ∈ (a :: l).dropLast) : x = a ∨ x ∈ l.dropLast := by
  cases l with
  | nil => cases h
  | cons y l =>
      rw [List.dropLast_cons_cons] at h
      exact List.mem_cons.1 h

theorem loop_spec (n : Nat) (first : Bool) (h : Good i) :
    Read n first i (consoleread.loop n first i).1 (consoleread.loop n first i).2.1
      (consoleread.loop n first i).2.2 := by
  induction n generalizing first i with
  | zero =>
      rw [consoleread.loop]
      exact ⟨h, rfl, (fun hf => by cases hf), (.inl (List.nil_append _).symm), List.not_mem_nil, le_rfl,
        List.not_mem_nil, (fun hf => by cases hf),
        fun _ => .inl rfl⟩
  | succ n ih =>
      rw [consoleread.loop]
      by_cases hrw : i.r = i.w
      · rw [if_pos hrw]
        exact ⟨h, rfl, fun _ => hrw, (.inl (List.nil_append _).symm), List.not_mem_nil, Nat.zero_le _, List.not_mem_nil,
          fun _ => ⟨List.not_mem_nil, Nat.succ_pos n⟩, fun hf => by cases hf⟩
      obtain ⟨hg, hp⟩ := h.pop hrw
      rw [if_neg hrw]
      dsimp only
      by_cases hD : i.buf (i.r % INPUT_BUF) = ctrl 'D'
      · rw [if_pos hD]
        rw [hD] at hp
        cases first with
        | true =>
            exact ⟨hg, line_setR _, (fun hf => by cases hf), .inr ⟨rfl, rfl, rfl, hp⟩, List.not_mem_nil, Nat.zero_le _,
              List.not_mem_nil, (fun hf => by cases hf), fun _ => .inr (.inr (.inr ⟨rfl, rfl, hp⟩))⟩
        | false =>
            -- the index is back where it was
            have hback : { i with r := pred (2 ^ 32) (uint (i.r + 1)) } = i := by
              have : pred (2 ^ 32) (uint (i.r + 1)) = i.r := pred_succ h.r
              rw [this]
            have hhead : (pending i).head? = some (ctrl 'D') := by rw [hp]; rfl
            simp only [Bool.false_eq_true, if_false, hback]
            exact ⟨h, rfl, (fun hf => by cases hf), (.inl (List.nil_append _).symm), List.not_mem_nil, Nat.zero_le _,
              List.not_mem_nil,
              (fun hf => by cases hf), fun _ => .inr (.inr (.inl ⟨.inl rfl, hhead⟩))⟩
      rw [if_neg hD]
      by_cases hN : i.buf (i.r % INPUT_BUF) = newline
      · rw [if_pos hN]
        rw [hN] at hp hD ⊢
        exact ⟨hg, line_setR _, (fun hf => by cases hf), .inl hp, by simpa using Ne.symm hD, Nat.succ_pos n,
          List.not_mem_nil,
          (fun hf => by cases hf), fun _ => .inr (.inl rfl)⟩
      rw [if_neg hN]
      have hr := ih false hg
      refine ⟨hr.good, hr.line.trans (line_setR _), hr.wait, ?_, ?_, ?_, ?_, ?_, ?_⟩
      · rcases hr.taken with ht | ⟨hf, -⟩
        · left
          rw [hp, ht, List.cons_append]
        · cases hf
      · rw [List.mem_cons, not_or]
        exact ⟨Ne.symm hD, hr.clean⟩
      · exact Nat.succ_le_succ hr.short
      · intro hm
        rcases mem_dropLast_cons hm with he | hm
        · exact hN he.symm
        · exact hr.oneLine hm
      · intro hh
        obtain ⟨h₁, h₂⟩ := hr.stay hh
        exact ⟨by simpa [Ne.symm hN] using h₁, Nat.succ_lt_succ h₂⟩
      · intro hh
        rcases hr.ended hh with h₁ | h₁ | ⟨-, h₁⟩ | ⟨hf, -⟩
        · exact .inl (congrArg Nat.succ h₁)
        · refine .inr (.inl ?_)
          rw [List.getLast?_cons, h₁]
          rfl
        · exact .inr (.inr (.inl ⟨.inr (List.cons_ne_nil _ _), h₁⟩))
        · cases hf

/-- What a call that returned has stored: one line at most, no control-D, no more than asked for. -/
def Returned (n r : Int) (bytes : List UInt8) : Prop :=
  (r = -1 ∨ r = bytes.length) ∧ ctrl 'D' ∉ bytes ∧ newline ∉ bytes.dropLast ∧ bytes.length ≤ n.toNat

structure Inv (s : Sys) (t : List Event) : Prop where
  good : Good s.input
  line : (edited t).2 = line s.input
  taken : ∃ X, (edited t).1 = X ++ pending s.input ∧ handed t = X.filter (· ≠ ctrl 'D')
  asleep : ∀ u n got, s.users u = .reading n got true → s.input.r = s.input.w
  got : ∀ u n got a, s.users u = .reading n got a → ctrl 'D' ∉ got ∧ newline ∉ got ∧ got.length < n.toNat
  returned : ∀ u n r bytes, .read u n r bytes ∈ t → Returned n r bytes

theorem edited_append (t e : List Event) : edited (t ++ e) = e.foldl (fun x e => match e with
    | .key c room => edit room c x
    | _ => x) (edited t) := List.foldl_append

theorem handed_append (t e : List Event) : handed (t ++ e) = handed t ++ handed e := List.filterMap_append

theorem Inv.key (h : Inv s t) (c : UInt8) :
    Inv { s with
          input := (consoleintr.char c s.input).1
          users := if (consoleintr.char c s.input).2 then wake ∘ s.users else s.users }
      (t ++ [.key c (INPUT_BUF - count (2 ^ 32) s.input.r s.input.e)]) := by
  have hc := char_spec h.good c
  obtain ⟨X, hX, hh⟩ := h.taken
  have hed : edited (t ++ [.key c (INPUT_BUF - count (2 ^ 32) s.input.r s.input.e)]) =
      (X ++ pending (consoleintr.char c s.input).1, Console.line (consoleintr.char c s.input).1) := by
    rw [edited_append, ← hc.edit X, ← hX, ← h.line]
    rfl
  -- a reader that is asleep afterwards was asleep before, and nothing was committed
  have huser : ∀ u n got a, (if (consoleintr.char c s.input).2 then wake ∘ s.users else s.users) u = .reading n got a →
      (∃ a', s.users u = .reading n got a') ∧
        (a = true → (consoleintr.char c s.input).2 = false ∧ s.users u = .reading n got true) := by
    intro u n got a hu
    cases hw : (consoleintr.char c s.input).2 with
    | false =>
        rw [hw] at hu
        exact ⟨⟨a, hu⟩, fun ha => ⟨rfl, ha ▸ hu⟩⟩
    | true =>
        rw [hw, if_pos rfl, Function.comp_apply] at hu
        cases hs : s.users u with
        | idle =>
            rw [hs] at hu
            cases hu
        | reading n' got' a' =>
            rw [hs] at hu
            cases hu
            exact ⟨⟨a', rfl⟩, fun ha => by cases ha⟩
  refine ⟨hc.good, by rw [hed], ⟨X, by rw [hed], ?_⟩, ?_, ?_, ?_⟩
  · rw [handed_append, hh]
    exact List.append_nil _
  · intro u n got hu
    obtain ⟨-, ha⟩ := huser u n got true hu
    obtain ⟨hw, hs⟩ := ha rfl
    exact hc.r.trans ((h.asleep u n got hs).trans (hc.w hw).symm)
  · intro u n got a hu
    obtain ⟨⟨a', hs⟩, -⟩ := huser u n got a hu
    exact h.got u n got a' hs
  · intro u n r bytes hm
    rcases List.mem_append.1 hm with hm | hm
    · exact h.returned u n r bytes hm
    · cases List.mem_singleton.1 hm

theorem intr_inv (cs : List UInt8) (h : Inv s t) : Inv (consoleintr cs s).1 (t ++ (consoleintr cs s).2) := by
  induction cs generalizing s t with
  | nil =>
      rw [consoleintr, List.append_nil]
      exact h
  | cons c cs ih =>
      have := ih (h.key c)
      rw [List.append_assoc] at this
      exact this

theorem intr_no_read {n r : Int} {bytes : List UInt8} (cs : List UInt8) (hc : consoleintr cs s = (s', e)) :
    .read u n r bytes ∉ e := by
  induction cs generalizing s e with
  | nil =>
      cases hc
      exact List.not_mem_nil
  | cons c cs ih =>
      unfold consoleintr at hc
      dsimp only at hc
      cases hc
      rw [List.mem_cons, not_or]
      exact ⟨(fun he => by cases he), ih rfl⟩

theorem handed_given (l : List UInt8) : handed (l.map .given) = l := by
  induction l with
  | nil => rfl
  | cons b l ih => exact congrArg (b :: ·) ih

theorem edited_given (t : List Event) (l : List UInt8) (e : List Event) (he : ∀ c room, Event.key c room ∉ e) :
    edited (t ++ (l.map .given ++ e)) = edited t := by
  have hkeep : ∀ (e : List Event) (x : List UInt8 × List UInt8), (∀ c room, Event.key c room ∉ e) →
      e.foldl (fun x e => match e with
        | .key c room => edit room c x
        | _ => x) x = x := by
    intro e
    induction e with
    | nil => exact fun _ _ => rfl
    | cons a e ih =>
        intro x hx
        rw [List.foldl_cons]
        cases a with
        | key c room => exact absurd List.mem_cons_self (hx c room)
        | given b => exact ih x fun c room hm => hx c room (List.mem_cons_of_mem _ hm)
        | read u n r bytes => exact ih x fun c room hm => hx c room (List.mem_cons_of_mem _ hm)
  rw [edited_append]
  refine hkeep _ _ fun c room hm => ?_
  rcases List.mem_append.1 hm with hm | hm
  · obtain ⟨b, -, hb⟩ := List.mem_map.1 hm
    cases hb
  · exact he c room hm

theorem Good.pending_nil (h : Good i) : pending i = [] ↔ i.r = i.w := by
  rw [← count_eq_zero h.r h.w, ← List.length_eq_zero_iff]
  exact Iff.of_eq (congrArg (· = 0) (length_contents _ _ _))

theorem Read.still_empty {first : Bool} {halt : Halt} {out : List UInt8} {i' : Input} (h : Good i)
    (hr : Read n first i halt out i') (he : i.r = i.w) : i'.r = i'.w := by
  have hp := h.pending_nil.2 he
  rcases hr.taken with ht | ⟨-, -, -, ht⟩
  · rw [hp] at ht
    exact hr.good.pending_nil.1 (List.append_eq_nil_iff.1 ht.symm).2
  · rw [hp] at ht
    cases ht

theorem Read.filter {first : Bool} {halt : Halt} {out : List UInt8} {i' : Input} (hr : Read n first i halt out i') :
    ∃ Y, pending i = Y ++ pending i' ∧ Y.filter (· ≠ ctrl 'D') = out := by
  rcases hr.taken with ht | ⟨-, ho, -, ht⟩
  · refine ⟨out, ht, List.filter_eq_self.2 fun b hb => ?_⟩
    simpa using fun hD : b = ctrl 'D' => hr.clean (hD ▸ hb)
  · refine ⟨[ctrl 'D'], ht, ?_⟩
    rw [ho]
    simp

theorem Inv.read {n : Int} {got out : List UInt8} {first : Bool} {halt : Halt} {i' : Input} {x : Reader} (h : Inv s t)
    (hr : Read (n.toNat - got.length) first s.input halt out i') (he : ∀ c room, Event.key c room ∉ e)
    (hg : handed e = []) (hx : ∀ m got' a, x = .reading m got' a → i'.r = i'.w ∧ ctrl 'D' ∉ got' ∧ newline ∉ got' ∧
      got'.length < m.toNat)
    (hret : ∀ v m r bytes, .read v m r bytes ∈ e → Returned m r bytes) :
    Inv { s with input := i', users := Function.update s.users u x } (t ++ (out.map .given ++ e)) := by
  obtain ⟨X, hX, hh⟩ := h.taken
  obtain ⟨Y, hY, hf⟩ := hr.filter
  have hed := edited_given t out e he
  refine ⟨hr.good, ?_, ⟨X ++ Y, ?_, ?_⟩, ?_, ?_, ?_⟩
  · rw [hed, h.line, hr.line]
  · rw [hed, hX, hY, List.append_assoc]
  · rw [handed_append, handed_append, handed_given, hg, hh, List.filter_append, hf, List.append_nil]
  · intro v m got' hv
    by_cases hvu : v = u
    · rw [hvu] at hv
      exact (hx m got' true (by simpa using hv)).1
    · exact hr.still_empty h.good (h.asleep v m got' (by simpa [Function.update_of_ne hvu] using hv))
  · intro v m got' a hv
    by_cases hvu : v = u
    · rw [hvu] at hv
      exact (hx m got' a (by simpa using hv)).2
    · exact h.got v m got' a (by simpa [Function.update_of_ne hvu] using hv)
  · intro v m r bytes hm
    rcases List.mem_append.1 hm with hm | hm
    · exact h.returned v m r bytes hm
    rcases List.mem_append.1 hm with hm | hm
    · obtain ⟨b, -, hb⟩ := List.mem_map.1 hm
      cases hb
    · exact hret v m r bytes hm

theorem Read.returned {n : Int} {got out : List UInt8} {first : Bool} {halt : Halt} {i' : Input} {r : Int}
    (hr : Read (n.toNat - got.length) first s.input halt out i') (hgot : ctrl 'D' ∉ got ∧ newline ∉ got ∧
      got.length ≤ n.toNat)
    (hres : r = -1 ∨ r = (got ++ out).length) : Returned n r (got ++ out) := by
  obtain ⟨hD, hN, hlen⟩ := hgot
  have hshort := hr.short
  refine ⟨hres, ?_, ?_, ?_⟩
  · rw [List.mem_append, not_or]
    exact ⟨hD, hr.clean⟩
  · intro hm
    cases out with
    | nil =>
        rw [List.append_nil] at hm
        exact hN ((List.dropLast_sublist got).subset hm)
    | cons b l =>
        rw [List.dropLast_append_of_ne_nil (List.cons_ne_nil b l)] at hm
        rcases List.mem_append.1 hm with hm | hm
        · exact hN hm
        · exact hr.oneLine hm
  · rw [List.length_append]
    omega

theorem read_inv {n : Int} {got : List UInt8} (h : Inv s t) (hgot : ctrl 'D' ∉ got ∧ newline ∉ got ∧
    got.length ≤ n.toNat) :
    Inv (consoleread s u n got).1 (t ++ (consoleread s u n got).2) := by
  have hr := loop_spec (n.toNat - got.length) got.isEmpty h.good
  unfold consoleread
  dsimp only
  generalize consoleread.loop (n.toNat - got.length) got.isEmpty s.input = x at hr ⊢
  obtain ⟨halt, out, i'⟩ := x
  dsimp only at hr ⊢
  cases halt with
  | done =>
      refine h.read hr (by simp) rfl (fun m got' a hx => by cases hx) fun v m r bytes hm => ?_
      cases List.mem_singleton.1 hm
      exact hr.returned hgot (.inr rfl)
  | empty =>
      dsimp only
      split
      · refine h.read hr (by simp) rfl (fun m got' a hx => by cases hx) fun v m r bytes hm => ?_
        cases List.mem_singleton.1 hm
        exact hr.returned hgot (.inl rfl)
      · have := h.read (e := []) (u := u) (x := .reading n (got ++ out) true) hr (by simp) rfl ?_ (by simp)
        · rwa [List.append_nil] at this
        · intro m got' a hx
          cases hx
          obtain ⟨h₁, h₂⟩ := hr.stay rfl
          refine ⟨hr.wait rfl, ?_, ?_, ?_⟩
          · rw [List.mem_append, not_or]
            exact ⟨hgot.1, hr.clean⟩
          · rw [List.mem_append, not_or]
            exact ⟨hgot.2.1, h₁⟩
          · rw [List.length_append]
            omega

theorem step_cases {a : Action} (hs : step s a = some (s', e)) : (∃ cs, consoleintr cs s = (s', e)) ∨
    (∃ u n got, (s.users u = .idle ∧ got = [] ∨ s.users u = .reading n got false) ∧ consoleread s u n got = (s', e)) ∨
    ∃ u, e = [] ∧ s' =
      { s with killed := Function.update s.killed u true, users := Function.update s.users u (wake (s.users u)) } := by
  cases a with
  | intr cs => exact .inl ⟨cs, Option.some.inj hs⟩
  | read u n =>
      unfold step at hs
      dsimp only at hs
      cases hu : s.users u with
      | idle =>
          rw [hu] at hs
          exact .inr (.inl ⟨u, n, [], .inl ⟨hu, rfl⟩, Option.some.inj hs⟩)
      | reading m got a =>
          rw [hu] at hs
          cases hs
  | resume u =>
      unfold step at hs
      dsimp only at hs
      cases hu : s.users u with
      | idle =>
          rw [hu] at hs
          cases hs
      | reading m got a =>
          rw [hu] at hs
          cases a with
          | true => cases hs
          | false => exact .inr (.inl ⟨u, m, got, .inr hu, Option.some.inj hs⟩)
  | kill u =>
      cases hs
      exact .inr (.inr ⟨u, rfl, rfl⟩)

theorem Inv.stored {n : Int} {got : List UInt8} (h : Inv s t)
    (hu : s.users u = .idle ∧ got = [] ∨ s.users u = .reading n got false) :
    ctrl 'D' ∉ got ∧ newline ∉ got ∧ got.length ≤ n.toNat := by
  rcases hu with ⟨-, rfl⟩ | hu
  · exact ⟨List.not_mem_nil, List.not_mem_nil, Nat.zero_le _⟩
  · obtain ⟨hD, hN, hlen⟩ := h.got u n got false hu
    exact ⟨hD, hN, hlen.le⟩

theorem kill_inv (h : Inv s t) (u : Nat) :
    Inv { s with killed := Function.update s.killed u true, users := Function.update s.users u (wake (s.users u)) }
      t := by
  have huser : ∀ v m got a, Function.update s.users u (wake (s.users u)) v = .reading m got a →
      ∃ a', s.users v = .reading m got a' ∧ (a = true → a' = true) := by
    intro v m got a hv
    by_cases hvu : v = u
    · subst hvu
      rw [Function.update_self] at hv
      cases hu : s.users v with
      | idle =>
          rw [hu] at hv
          cases hv
      | reading m' got' a' =>
          rw [hu] at hv
          cases hv
          exact ⟨a', rfl, fun ha => by cases ha⟩
    · rw [Function.update_of_ne hvu] at hv
      exact ⟨a, hv, id⟩
  refine ⟨h.good, h.line, h.taken, fun v m got hv => ?_, fun v m got a hv => ?_, h.returned⟩
  · obtain ⟨a', hv', ha⟩ := huser v m got true hv
    exact h.asleep v m got (ha rfl ▸ hv')
  · obtain ⟨a', hv', -⟩ := huser v m got a hv
    exact h.got v m got a' hv'

theorem step_inv {a : Action} (h : Inv s t) (hs : step s a = some (s', e)) : Inv s' (t ++ e) := by
  rcases step_cases hs with ⟨cs, hc⟩ | ⟨u, n, got, hu, hc⟩ | ⟨u, rfl, rfl⟩
  · have := intr_inv cs h
    rwa [hc] at this
  · have := read_inv (u := u) h (h.stored hu)
    rwa [hc] at this
  · rw [List.append_nil]
    exact kill_inv h u

theorem Reaches.inv (h : Reaches s t) : Inv s t := by
  induction h with
  | start buf killed =>
      have h0 : (0 : Nat) < 2 ^ 32 := by decide
      have hc : count (2 ^ 32) 0 0 = 0 := count_self h0
      have hnil : contents INPUT_BUF (2 ^ 32) buf 0 0 = [] := contents_self buf h0
      have hline : line ⟨buf, 0, 0, 0⟩ = [] := hnil
      have hpend : pending ⟨buf, 0, 0, 0⟩ = [] := hnil
      refine ⟨⟨h0, h0, h0, ?_, ?_, ?_⟩, hline.symm, ⟨[], ?_, rfl⟩, ?_, ?_, ?_⟩
      · change count (2 ^ 32) 0 0 + count (2 ^ 32) 0 0 = count (2 ^ 32) 0 0
        rw [hc]
      · change count (2 ^ 32) 0 0 ≤ INPUT_BUF
        rw [hc]
        exact Nat.zero_le _
      · rw [hline]
        exact fun b hb => by cases hb
      · rw [hpend]
        rfl
      · intro u n got hu
        cases hu
      · intro u n got a hu
        cases hu
      · intro u n r bytes hm
        cases hm
  | step _ hs ih => exact step_inv ih hs

/-- How a call that did not fail can end: it has all it was asked for, or a line, or it
stopped before a control-D, or took that as its whole result. -/
def Ended (n : Int) (bytes : List UInt8) (i i' : Input) : Prop :=
  bytes.length = n.toNat ∨ bytes.getLast? = some newline ∨ bytes ≠ [] ∧ (pending i').head? = some (ctrl 'D') ∨
    bytes = [] ∧ pending i = ctrl 'D' :: pending i'

theorem read_ended {n m r : Int} {got bytes : List UInt8} {v : Nat} (h : Inv s t)
    (hgot : ctrl 'D' ∉ got ∧ newline ∉ got ∧ got.length ≤ n.toNat) (hc : consoleread s u n got = (s', e))
    (hm : .read v m r bytes ∈ e) (hr : r ≠ -1) : Ended m bytes s.input s'.input := by
  have hl := loop_spec (n.toNat - got.length) got.isEmpty h.good
  have hmem : ∀ (out : List UInt8) (a : Event), .read v m r bytes ∈ out.map Event.given ++ [a] →
      a = .read v m r bytes := by
    intro out a hm
    rcases List.mem_append.1 hm with hm | hm
    · obtain ⟨b, -, hb⟩ := List.mem_map.1 hm
      cases hb
    · exact (List.mem_singleton.1 hm).symm
  unfold consoleread at hc
  dsimp only at hc
  generalize consoleread.loop (n.toNat - got.length) got.isEmpty s.input = x at hl hc
  obtain ⟨halt, out, i'⟩ := x
  dsimp only at hl hc
  cases halt with
  | done =>
      cases hc
      cases hmem out _ hm
      rcases hl.ended rfl with he | he | ⟨hne, he⟩ | ⟨hf, ho, he⟩
      · left
        rw [List.length_append]
        omega
      · right
        left
        rw [List.getLast?_append, he]
        rfl
      · refine .inr (.inr (.inl ⟨fun hnil => ?_, he⟩))
        obtain ⟨h₁, h₂⟩ := List.append_eq_nil_iff.1 hnil
        rcases hne with hne | hne
        · rw [h₁] at hne
          cases hne
        · exact hne h₂
      · refine .inr (.inr (.inr ⟨?_, he⟩))
        rw [List.isEmpty_iff.1 hf, ho]
        rfl
  | empty =>
      dsimp only at hc
      split at hc
      · cases hc
        cases hmem out _ hm
        exact absurd rfl hr
      · cases hc
        obtain ⟨b, -, hb⟩ := List.mem_map.1 hm
        cases hb

/-- What a section took from the committed bytes: those that it handed over, or a control-D as
its whole result. -/
def Took (s s' : Sys) (e : List Event) : Prop :=
  pending s.input = handed e ++ pending s'.input ∨
    handed e = [] ∧ pending s.input = ctrl 'D' :: pending s'.input ∧ ∃ u n, .read u n 0 [] ∈ e

/-- A section of a call that has stored so many bytes adds those that it hands over, and returns
them all or sleeps with them. -/
theorem read_took {n : Int} {got : List UInt8} (h : Inv s t) (hc : consoleread s u n got = (s', e)) :
    Took s s' e ∧ ((∃ r, .read u n r (got ++ handed e) ∈ e) ∨ s'.users u = .reading n (got ++ handed e) true) := by
  have hl := loop_spec (n.toNat - got.length) got.isEmpty h.good
  unfold consoleread at hc
  dsimp only at hc
  generalize consoleread.loop (n.toNat - got.length) got.isEmpty s.input = x at hl hc
  obtain ⟨halt, out, i'⟩ := x
  dsimp only at hl hc
  have hread : ∀ r bytes, handed (out.map .given ++ [.read u n r bytes]) = out := by
    intro r bytes
    rw [handed_append, handed_given]
    exact List.append_nil out
  cases halt with
  | done =>
      cases hc
      refine ⟨?_, .inl ⟨(got ++ out).length, ?_⟩⟩
      · unfold Took
        rw [hread]
        rcases hl.taken with ht | ⟨hf, ho, -, ht⟩
        · exact .inl ht
        · refine .inr ⟨ho, ht, u, n, ?_⟩
          rw [ho, List.isEmpty_iff.1 hf]
          exact List.mem_singleton_self _
      · rw [hread]
        exact List.mem_append_right _ (List.mem_singleton_self _)
  | empty =>
      dsimp only at hc
      have ht : pending s.input = out ++ pending i' := by
        rcases hl.taken with ht | ⟨-, -, hd, -⟩
        · exact ht
        · cases hd
      split at hc
      · cases hc
        refine ⟨.inl ?_, .inl ⟨-1, ?_⟩⟩
        · rw [hread]
          exact ht
        · rw [hread]
          exact List.mem_append_right _ (List.mem_singleton_self _)
      · cases hc
        rw [handed_given]
        refine ⟨.inl ?_, .inr (Function.update_self ..)⟩
        rw [handed_given]
        exact ht

theorem read_eof {n : Int} (h : Inv s t) (hu : s.users u = .idle) (hn : 0 < n)
    (hD : (pending s.input).head? = some (ctrl 'D')) :
    ∃ s', step s (.read u n) = some (s', [.read u n 0 []]) ∧ pending s.input = ctrl 'D' :: pending s'.input := by
  have hrw : s.input.r ≠ s.input.w := fun he => by
    rw [h.good.pending_nil.2 he] at hD
    cases hD
  obtain ⟨hg, hp⟩ := h.good.pop hrw
  have hc : s.input.buf (s.input.r % INPUT_BUF) = ctrl 'D' := by
    rw [hp] at hD
    exact Option.some.inj hD
  obtain ⟨k, hk⟩ : ∃ k, n.toNat = k + 1 := ⟨n.toNat - 1, by omega⟩
  have hloop : consoleread.loop (n.toNat - ([] : List UInt8).length) ([] : List UInt8).isEmpty s.input =
      (.done, [], { s.input with r := uint (s.input.r + 1) }) := by
    rw [List.length_nil, Nat.sub_zero, hk, consoleread.loop, if_neg hrw]
    dsimp only
    rw [if_pos hc]
    rfl
  refine ⟨{ s with input := { s.input with r := uint (s.input.r + 1) }, users := Function.update s.users u .idle },
    ?_, ?_⟩
  · unfold step
    dsimp only
    rw [hu]
    dsimp only
    unfold consoleread
    rw [hloop]
    rfl
  · rw [hp, hc]

/-- The console as readers see it. -/
theorem console_line_discipline (h : Reaches s t) :
    (count (2 ^ 32) s.input.r s.input.w ≤ count (2 ^ 32) s.input.r s.input.e ∧
      count (2 ^ 32) s.input.r s.input.e ≤ INPUT_BUF ∧
      count (2 ^ 32) s.input.r s.input.e = (pending s.input).length + (edited t).2.length) ∧
    (∃ X, (edited t).1 = X ++ pending s.input ∧ handed t = X.filter (· ≠ ctrl 'D')) ∧
    handed t <+: (edited t).1.filter (· ≠ ctrl 'D') ∧
    (∀ u n r bytes, .read u n r bytes ∈ t → Returned n r bytes) ∧
    (∀ u n got, s.users u = .reading n got true → s.input.r = s.input.w) ∧
    (∀ a s' e, step s a = some (s', e) → ∀ u n r bytes, .read u n r bytes ∈ e → r ≠ -1 →
      Ended n bytes s.input s'.input) ∧
    (∀ u n got s' e, s.users u = .idle ∧ got = [] ∨ s.users u = .reading n got false →
      consoleread s u n got = (s', e) →
      Took s s' e ∧ ((∃ r, .read u n r (got ++ handed e) ∈ e) ∨ s'.users u = .reading n (got ++ handed e) true)) ∧
    ∀ u n, s.users u = .idle → 0 < n → (pending s.input).head? = some (ctrl 'D') →
      ∃ s', step s (.read u n) = some (s', [.read u n 0 []]) ∧ pending s.input = ctrl 'D' :: pending s'.input := by
  have hi := h.inv
  obtain ⟨X, hX, hh⟩ := hi.taken
  have hs := hi.good.split
  have hlp : (pending s.input).length = count (2 ^ 32) s.input.r s.input.w := length_contents _ _ _
  have hll : (line s.input).length = count (2 ^ 32) s.input.w s.input.e := length_contents _ _ _
  refine ⟨⟨by omega, hi.good.fits, ?_⟩, ⟨X, hX, hh⟩, ?_, hi.returned, hi.asleep, ?_, ?_, ?_⟩
  · rw [hi.line]
    omega
  · rw [hX, List.filter_append, hh]
    exact List.prefix_append _ _
  · intro a s' e hst u n r bytes hm hr
    rcases step_cases hst with ⟨cs, hc⟩ | ⟨v, m, got, hu, hc⟩ | ⟨v, rfl, -⟩
    · exact absurd hm (intr_no_read cs hc)
    · exact read_ended hi (hi.stored hu) hc hm hr
    · cases hm
  · intro u n got s' e _ hc
    exact read_took hi hc
  · intro u n hu hn hD
    exact read_eof hi hu hn hD

/-- A byte and a control-D are typed. The first read stops before the control-D, the second takes
it and returns nothing. -/
theorem console_line_discipline_line : ∃ s t, Reaches s t ∧ handed t = [97] ∧ (edited t).1 = [97, ctrl 'D'] ∧
    handed t <+: (edited t).1.filter (· ≠ ctrl 'D') ∧
    ∀ s' e, consoleread s 0 5 [] = (s', e) → Took s s' e := by
  have h₁ := (Reaches.start (fun _ => 0) fun _ => false).step (a := .intr [97, ctrl 'D']) rfl
  have h₂ := h₁.step (a := .read 0 5) rfl
  have h := console_line_discipline h₂
  exact ⟨_, _, h₂, by decide +kernel, by decide +kernel, h.2.2.1,
    fun s' e hc => (h.2.2.2.2.2.2.1 0 5 [] s' e (.inl ⟨rfl, rfl⟩) hc).1⟩

end ArmXv6.Console
