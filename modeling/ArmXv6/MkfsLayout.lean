import ArmXv6.Directory
import ArmXv6.Mkfs

namespace ArmXv6.MkfsLayout

open Lib.Exec Lib.Bytes Param Blocks Fs Content DiskImage Mkfs

variable {α β : Type} {s t u : Tool} {e e' : List Mkfs.Event} {k j : Nat}

/-- What a run hands out is what its counters pass over. -/
structure Records (k : Nat) (s t : Tool) (e : List Mkfs.Event) : Prop where
  freeinode : t.freeinode = s.freeinode + k
  freeblock : s.freeblock ≤ t.freeblock
  usedblocks : t.usedblocks + s.freeblock = s.usedblocks + t.freeblock
  inode : ∀ i, .inode i ∈ e ↔ s.freeinode ≤ i ∧ i < t.freeinode
  block : ∀ b, .block b ∈ e ↔ s.freeblock ≤ b ∧ b < t.freeblock

theorem Records.refl (s : Tool) : Records 0 s s [] where
  freeinode := rfl
  freeblock := le_rfl
  usedblocks := rfl
  inode i := iff_of_false List.not_mem_nil (by omega)
  block b := iff_of_false List.not_mem_nil (by omega)

theorem Records.trans (h : Records j s t e) (h' : Records k t u e') : Records (j + k) s u (e ++ e') where
  freeinode := by rw [h'.freeinode, h.freeinode, Nat.add_assoc]
  freeblock := h.freeblock.trans h'.freeblock
  usedblocks := by
    have hs := h.usedblocks
    have ht := h'.usedblocks
    omega
  inode i := by
    have hs := h.freeinode
    have ht := h'.freeinode
    rw [List.mem_append, h.inode, h'.inode]
    omega
  block b := by
    have hs := h.freeblock
    have ht := h'.freeblock
    rw [List.mem_append, h.block, h'.block]
    omega

/-- The program hands out k inodes, and its events say what it hands out. -/
def Recording (k : Nat) (m : MkM α) : Prop := ∀ s, (m s).Ends True fun _ t e => Records k s t e

theorem Recording.bind {m : MkM β} {f : β → MkM α} (hm : Recording j m) (hf : ∀ b, Recording k (f b)) :
    Recording (j + k) (m >>= f) := by
  intro s
  rw [ends_bind]
  refine (hm s).mono (fun b t e h => ?_) id
  exact (hf b t).mono (fun a u e' h' => h.trans h') id

theorem Recording.then {m : MkM β} {f : β → MkM α} (hm : Recording 0 m) (hf : ∀ b, Recording k (f b)) :
    Recording k (m >>= f) := by
  have h := hm.bind hf
  rwa [Nat.zero_add] at h

theorem recording_pure (a : α) : Recording 0 (pure a : MkM α) := fun s => Records.refl s

theorem recording_panic (msg : String) : Recording k (Prog.panic msg : MkM α) := fun _ => trivial

theorem recording_fetch : Recording 0 (fetch : MkM Tool) := fun s => Records.refl s

theorem recording_ite {c : Prop} [Decidable c] {m n : MkM α} (hm : Recording k m) (hn : Recording k n) :
    Recording k (if c then m else n) := by
  by_cases hc : c
  · rw [if_pos hc]
    exact hm
  · rw [if_neg hc]
    exact hn

theorem recording_rsect (sec : Nat) : Recording 0 (rsect sec) :=
  recording_fetch.then fun _ => recording_ite (recording_panic _) (recording_pure _)

theorem recording_wsect (kind : Kind) (sec : Nat) (d : Block) : Recording 0 (wsect kind sec d) := by
  intro s
  unfold wsect
  rw [ends_bind, ends_emit, ends_update]
  exact ⟨rfl, le_rfl, rfl, fun i => iff_of_false (by simp) (by simp only; omega), fun b =>
    iff_of_false (by simp) (by simp only; omega)⟩

theorem recording_rinode (inum : Nat) : Recording 0 (rinode inum) := (recording_rsect _).then fun _ => recording_pure _

theorem recording_winode (inum : Nat) (d : Dinode) : Recording 0 (winode inum d) :=
  (recording_rsect _).then fun _ => recording_wsect _ _ _

theorem recording_newBlock : Recording 0 newBlock := by
  intro s
  unfold newBlock
  simp only [ends_bind, ends_fetch, ends_emit, ends_update, ends_pure, List.nil_append, List.append_nil]
  refine ⟨rfl, Nat.le_succ _, by simp only; omega, fun i => iff_of_false (by simp) (by simp only; omega), fun b => ?_⟩
  rw [List.mem_singleton, Event.block.injEq]
  simp only
  omega

theorem recording_ialloc (type : Nat) : Recording 1 (Mkfs.ialloc type) := by
  intro s
  unfold Mkfs.ialloc
  simp only [ends_bind, ends_fetch, ends_emit, ends_update, ends_pure, List.nil_append, List.append_nil]
  refine (recording_winode _ _ _).mono (fun _ t e h => ?_) id
  have hnext : Records 1 s { s with freeinode := s.freeinode + 1 } [.inode s.freeinode] := by
    refine ⟨rfl, le_rfl, rfl, fun i => ?_, fun b => iff_of_false (by simp) (by simp only; omega)⟩
    rw [List.mem_singleton, Event.inode.injEq]
    simp only
    omega
  exact hnext.trans h

theorem recording_block (din : Dinode) (fbn : Nat) : Recording 0 (iappend.block din fbn) := by
  unfold iappend.block
  refine recording_ite ?_ ?_
  · exact recording_ite (recording_newBlock.then fun b => recording_pure _) (recording_pure _)
  · refine Recording.then
      (recording_ite (recording_newBlock.then fun b => recording_pure _) (recording_pure _)) fun d => ?_
    refine (recording_rsect _).then fun indirect => recording_ite ?_ (recording_pure _)
    exact recording_newBlock.then fun b => (recording_wsect _ _ _).then fun _ => recording_pure _

theorem recording_loop (fuel off : Nat) (p : List UInt8) (din : Dinode) :
    Recording 0 (iappend.loop fuel off p din) := by
  induction fuel generalizing off p din with
  | zero => exact recording_pure _
  | succ fuel ih =>
      unfold iappend.loop
      refine recording_ite (recording_ite (recording_panic _) ?_) (recording_pure _)
      exact (recording_block din _).then fun x => (recording_rsect _).then fun buf =>
        (recording_wsect _ _ _).then fun _ => ih _ _ _

theorem recording_iappend (inum : Nat) (p : List UInt8) : Recording 0 (iappend inum p) :=
  (recording_rinode inum).then fun _ => (recording_loop _ _ _ _).then fun _ => recording_winode _ _

theorem recording_appendFile (inum fuel : Nat) (data : List UInt8) : Recording 0 (appendFile inum fuel data) := by
  induction fuel generalizing data with
  | zero => exact recording_pure _
  | succ fuel ih => exact recording_ite (recording_pure _) ((recording_iappend inum _).then fun _ => ih _)

theorem recording_addFiles (rootino : Nat) (files : List (List UInt8 × List UInt8)) :
    Recording files.length (addFiles rootino files) := by
  induction files with
  | nil => exact recording_pure _
  | cons file rest ih =>
      rw [List.length_cons, Nat.add_comm]
      unfold addFiles
      exact (recording_ialloc _).bind fun inum => (recording_iappend _ _).then fun _ =>
        (recording_appendFile _ _ _).then fun _ => ih

theorem recording_balloc (used : Nat) : Recording 0 (balloc used) :=
  recording_ite (recording_panic _) (recording_wsect _ _ _)

theorem recording_main (files : List (List UInt8 × List UInt8)) : Recording (1 + files.length) (main files) := by
  unfold main
  refine (recording_ialloc _).bind fun rootino => recording_ite (recording_panic _) ?_
  refine (recording_iappend _ _).then fun _ => (recording_iappend _ _).then fun _ => ?_
  have h := (recording_addFiles rootino files).bind (k := 0) fun _ => (recording_rinode rootino).then fun din =>
    (recording_winode rootino { din with size := (din.size / BSIZE + 1) * BSIZE }).then fun _ =>
      recording_fetch.then fun m => recording_balloc m.usedblocks
  exact h

def blocks (size : Nat) : Nat := (size + 511) / 512

/-- The blocks that mkfs takes for such a file: its own, and the indirect block. -/
def need (size : Nat) : Nat := blocks size + if NDIRECT < blocks size then 1 else 0

/-- The sectors up to the bitmap have a use each. -/
def kindOf (sec : Nat) : Kind :=
  if sec = 1 then .superblock else if 2 ≤ sec ∧
    sec < ninodes / IPB + 3 then .inode else if sec = ninodes / IPB + 3 then .bitmap else .content

/-- What the events of mkfs have to be: inode numbers and blocks inside the layout, no sector past
the end, and nothing foreign in the
sectors of the superblock, the inodes and the bitmap. -/
def Fitting : Mkfs.Event → Prop
  | .inode i => i < ninodes
  | .block b => firstFree ≤ b ∧ b < size - nlog
  | .sector sec kind => sec < size ∧ (kindOf sec ≠ .content → kind = kindOf sec)

/-- The sectors are written as they should be. -/
def Clean (e : List Mkfs.Event) : Prop := ∀ sec kind, .sector sec kind ∈ e → sec < size ∧
    (kindOf sec ≠ .content → kind = kindOf sec)

/-- A place for a block number is in use, with a block of the data area, or 0. -/
def Slot (f a : Nat) (inUse : Prop) : Prop := inUse ∧ firstFree ≤ a ∧ a < f ∨ ¬inUse ∧ a = 0

/-- The indirect block ind of a file of k blocks. -/
def Entries (f k ind : Nat) (b : Block) : Prop :=
  ∀ j < NINDIRECT, Slot f (b.word (4 * j)) (NDIRECT + j < k) ∧ b.word (4 * j) ≠ ind

/-- The blocks of a file of off bytes, when f is the next free block. -/
structure Laid (img : Nat → Block) (f off : Nat) (d : Dinode) : Prop where
  ok : DinodeOk d
  bound : off ≤ MAXFILE * BSIZE
  direct : ∀ j < NDIRECT, Slot f (d.addrs j) (j < blocks off)
  single : Slot f (d.addrs NDIRECT) (NDIRECT < blocks off)
  entries : NDIRECT < blocks off → Entries f (blocks off) (d.addrs NDIRECT) (img (d.addrs NDIRECT))

/-- The blocks from the next free one on are empty. -/
structure Sound (s : Tool) : Prop where
  low : firstFree ≤ s.freeblock
  used : s.usedblocks = s.freeblock
  fresh : ∀ b, s.freeblock ≤ b → s.img b = Mem.zero

theorem consts : firstFree = 29 ∧ size = 1024 ∧ NDIRECT = 12 ∧ NINDIRECT = 128 ∧ MAXFILE = 140 ∧
    MAXFILE * BSIZE = 71680 ∧ IPB = 8 ∧ ninodes = 200 := by decide

theorem Clean.append (h : Clean e) (h' : Clean e') : Clean (e ++ e') := by
  intro sec kind hm
  rcases List.mem_append.mp hm with hm | hm
  · exact h sec kind hm
  · exact h' sec kind hm

theorem clean_nil : Clean [] := by
  intro sec kind hm
  cases hm

theorem clean_block (b : Nat) : Clean [.block b] := by
  intro sec kind hm
  cases List.mem_singleton.mp hm

theorem clean_inode (i : Nat) : Clean [.inode i] := by
  intro sec kind hm
  cases List.mem_singleton.mp hm

theorem kindOf_data {sec : Nat} (h : firstFree ≤ sec) : kindOf sec = .content := by
  obtain ⟨hf, -, -, -, -, -, hi, hn⟩ := consts
  unfold kindOf
  rw [hi, hn, if_neg (by omega), if_neg (by omega), if_neg (by omega)]

theorem clean_data {sec : Nat} (h : firstFree ≤ sec) (h' : sec < size) : Clean [.sector sec .content] := by
  intro sec' kind hm
  cases List.mem_singleton.mp hm
  exact ⟨h', fun _ => (kindOf_data h).symm⟩

theorem clean_winode {i : Nat} (h : i < ninodes) : Clean [.sector (IBLOCK i) .inode] := by
  obtain ⟨hf, hs, -, -, -, -, hi, hn⟩ := consts
  intro sec' kind hm
  cases List.mem_singleton.mp hm
  unfold kindOf IBLOCK
  rw [hi, hn, if_neg (by omega), if_pos (by omega)]
  exact ⟨by omega, fun _ => rfl⟩

theorem Slot.mono {f f' a : Nat} {P : Prop} (h : Slot f a P) (hf : f ≤ f') : Slot f' a P := by
  rcases h with ⟨hp, hlo, hhi⟩ | ⟨hp, ha⟩
  · exact .inl ⟨hp, hlo, by omega⟩
  · exact .inr ⟨hp, ha⟩

theorem Slot.iff {f a : Nat} {P P' : Prop} (h : Slot f a P) (hp : P ↔ P') : Slot f a P' := by
  rcases h with ⟨hP, h⟩ | ⟨hP, h⟩
  · exact .inl ⟨hp.mp hP, h⟩
  · exact .inr ⟨fun hP' => hP (hp.mpr hP'), h⟩

theorem Slot.zero_iff {f a : Nat} {P : Prop} (h : Slot f a P) : a = 0 ↔ ¬P := by
  have hf := consts.1
  rcases h with ⟨hp, hlo, hhi⟩ | ⟨hp, ha⟩
  · exact iff_of_false (by omega) fun hn => hn hp
  · exact iff_of_true ha hp

theorem Slot.range {f a : Nat} {P : Prop} (h : Slot f a P) (hp : P) : firstFree ≤ a ∧ a < f := by
  rcases h with ⟨-, hr⟩ | ⟨hn, -⟩
  · exact hr
  · exact absurd hp hn

theorem Laid.same {img : Nat → Block} {f off off' : Nat} {d : Dinode} (h : Laid img f off d)
    (hb : blocks off' = blocks off)
    (hoff : off' ≤ MAXFILE * BSIZE) : Laid img f off' d where
  ok := h.ok
  bound := hoff
  direct j hj := by
    rw [hb]
    exact h.direct j hj
  single := by
    rw [hb]
    exact h.single
  entries hn := by
    rw [hb] at hn ⊢
    exact h.entries hn

theorem Laid.write {img : Nat → Block} {f off x : Nat} {d : Dinode} (h : Laid img f off d)
    (hx : NDIRECT < blocks off → x ≠ d.addrs NDIRECT) (b : Block) :
    Laid (Function.update img x b) f off d where
  ok := h.ok
  bound := h.bound
  direct := h.direct
  single := h.single
  entries hn := by
    rw [Function.update_of_ne (hx hn).symm]
    exact h.entries hn

theorem blocks_at {off off' : Nat} (hlt : off < off') (hle : off' ≤ (off / 512 + 1) * 512) :
    blocks off' = off / 512 + 1 := by
  unfold blocks
  omega

theorem blocks_cases (off : Nat) : blocks off = off / 512 ∧ off % 512 = 0 ∨ blocks off = off / 512 + 1 ∧
    off % 512 ≠ 0 := by
  unfold blocks
  omega

theorem entries_zero {f k ind : Nat} (hk : k ≤ NDIRECT) (hi : ind ≠ 0) : Entries f k ind Mem.zero := by
  intro j hj
  rw [Mem.word_zero]
  exact ⟨.inr ⟨by omega, rfl⟩, hi.symm⟩

theorem Entries.extend {f f' k ind b : Nat} {d : Block} (h : Entries f k ind d) (hk : NDIRECT ≤ k) (hf : f ≤ f')
    (hlo : firstFree ≤ b) (hhi : b < f') (hb : b < 2 ^ 32) (hi : b ≠ ind) :
      Entries f' (k + 1) ind (d.setWord (4 * (k - NDIRECT)) b) := by
  obtain ⟨-, -, hd, hn, hm, hbs, -, -⟩ := consts
  have hbsize : BSIZE = 512 := rfl
  intro j hj
  by_cases hjk : j = k - NDIRECT
  · rw [hjk, Mem.word_setWord_self _ _ _ (by omega) hb]
    exact ⟨.inl ⟨by omega, hlo, hhi⟩, hi⟩
  · rw [Mem.word_setWord_of_disjoint _ _ _ _ (by omega)]
    obtain ⟨hslot, hne⟩ := h j hj
    exact ⟨(hslot.mono hf).iff (by omega), hne⟩

structure Grows (s t : Tool) (e : List Mkfs.Event) : Prop where
  freeinode : t.freeinode = s.freeinode
  sectors : ∀ sec < firstFree, t.img sec = s.img sec
  clean : Clean e

theorem Grows.refl (s : Tool) : Grows s s [] := ⟨rfl, fun _ _ => rfl, clean_nil⟩

theorem Grows.trans (h : Grows s t e) (h' : Grows t u e') : Grows s u (e ++ e') where
  freeinode := h'.freeinode.trans h.freeinode
  sectors sec hsec := (h'.sectors sec hsec).trans (h.sectors sec hsec)
  clean := h.clean.append h'.clean

def taken (s : Tool) : Tool := { s with freeblock := s.freeblock + 1, usedblocks := s.usedblocks + 1 }

theorem ends_newBlock {E : Prop} {Q : Nat → Tool → List Mkfs.Event → Prop} (s : Tool) :
    (newBlock s).Ends E Q ↔ Q s.freeblock (taken s) [.block s.freeblock] := Iff.rfl

def written (s : Tool) (sec : Nat) (d : Block) : Tool := { s with img := Function.update s.img sec d }

theorem ends_wsect {E : Prop} {Q : Unit → Tool → List Mkfs.Event → Prop} (kind : Kind) (sec : Nat) (d : Block)
    (s : Tool) :
    (wsect kind sec d s).Ends E Q ↔ Q () (written s sec d) [.sector sec kind] := Iff.rfl

theorem ends_rsect {E : Prop} {Q : Block → Tool → List Mkfs.Event → Prop} (sec : Nat) (s : Tool) :
    (rsect sec s).Ends E Q ↔ (size ≤ sec → E) ∧ (sec < size → Q (s.img sec) s []) := by
  unfold rsect
  rw [ends_bind, ends_fetch, ends_ite]
  simp only [ends_panic, ends_pure, not_le, List.nil_append]

theorem grows_taken (s : Tool) : Grows s (taken s) [.block s.freeblock] := ⟨rfl, fun _ _ => rfl, clean_block _⟩

theorem grows_written {sec : Nat} (h : firstFree ≤ sec) (h' : sec < size) (d : Block) :
    Grows s (written s sec d) [.sector sec .content] where
  freeinode := rfl
  sectors sec' hlt := Function.update_of_ne (by omega) _ _
  clean := clean_data h h'

theorem sound_taken (h : Sound s) : Sound (taken s) where
  low := Nat.le_succ_of_le h.low
  used := congrArg Nat.succ h.used
  fresh b hb := h.fresh b (Nat.le_of_succ_le hb)

theorem sound_written (h : Sound s) {sec : Nat} (hsec : sec < s.freeblock) (d : Block) : Sound (written s sec d) where
  low := h.low
  used := h.used
  fresh b hb := by
    have hne : b ≠ sec := by
      have : s.freeblock ≤ b := hb
      omega
    exact (Function.update_of_ne hne _ _).trans (h.fresh b hb)

theorem dinodeOk_addr {d : Dinode} (h : DinodeOk d) {i b : Nat} (hi : i ≤ NDIRECT) (hb : b < 2 ^ 32) :
    DinodeOk { d with addrs := Function.update d.addrs i b } where
  type := h.type
  major := h.major
  minor := h.minor
  nlink := h.nlink
  size := h.size
  addrs j := by
    by_cases hj : j = i
    · simpa [hj] using hb
    · simpa [hj] using h.addrs j
  none j hj := by
    have hne : j ≠ i := by omega
    simpa [hne] using h.none j hj

def place (img : Nat → Block) (d : Dinode) (n : Nat) : Nat :=
  if n < NDIRECT then d.addrs n else (img (d.addrs NDIRECT)).word (4 * (n - NDIRECT))

/-- The ways in which iappend.block makes block n: in the inode, in the indirect block, or with the indirect block. -/
inductive Change (s : Tool) (n : Nat) (d : Dinode) : Tool → Nat × Dinode → Prop
  | direct (h : n < NDIRECT) :
      Change s n d (taken s) (s.freeblock, { d with addrs := Function.update d.addrs n s.freeblock })
  | entry (h : NDIRECT < n) : Change s n d
      (written (taken s) (d.addrs NDIRECT) ((s.img (d.addrs NDIRECT)).setWord (4 * (n - NDIRECT)) s.freeblock))
        (s.freeblock, d)
  | single (h : n = NDIRECT) : Change s n d
      (written (taken (taken s)) s.freeblock ((Mem.zero : Block).setWord (4 * (n - NDIRECT)) (s.freeblock + 1)))
      (s.freeblock + 1, { d with addrs := Function.update d.addrs NDIRECT s.freeblock })

/-- What iappend.block has done, for a file that grows from off to off' bytes inside the block that it has found. -/
structure Placed (s t : Tool) (d : Dinode) (off off' : Nat) (r : Nat × Dinode) (e : List Mkfs.Event) : Prop where
  grows : Grows s t e
  sound : Sound t
  laid : Laid t.img t.freeblock off' r.2
  count : t.freeblock + need off = s.freeblock + need off'
  found : firstFree ≤ r.1 ∧ r.1 < t.freeblock
  apart : NDIRECT < blocks off' → r.1 ≠ r.2.addrs NDIRECT
  last : t.freeblock = s.freeblock ∨ t.freeblock = r.1 + 1
  change : blocks off' = blocks off ∧ t = s ∧ r = (place s.img d (off / BSIZE), d) ∨ blocks off = off / BSIZE ∧
    Change s (off / BSIZE) d t r

theorem Placed.old {off off' x : Nat} {d : Dinode} (hs : Sound s) (h : Laid s.img s.freeblock off d)
    (hb : blocks off' = blocks off)
    (hoff : off' ≤ MAXFILE * BSIZE) (hx : firstFree ≤ x ∧ x < s.freeblock) (hne : NDIRECT < blocks off →
      x ≠ d.addrs NDIRECT)
    (hplace : x = place s.img d (off / BSIZE)) : Placed s s d off off' (x, d) [] where
  grows := .refl s
  sound := hs
  laid := h.same hb hoff
  count := by
    unfold need
    rw [hb]
  found := hx
  apart hn := by
    rw [hb] at hn
    exact hne hn
  last := .inl rfl
  change := .inl ⟨hb, rfl, by rw [hplace]⟩

theorem Placed.direct {off off' : Nat} {d : Dinode} (hs : Sound s) (htop : s.freeblock ≤ size)
    (h : Laid s.img s.freeblock off d)
    (hq : blocks off = off / BSIZE) (hb : blocks off' = blocks off + 1) (hk : blocks off < NDIRECT)
      (hoff : off' ≤ MAXFILE * BSIZE) :
    Placed s (taken s) d off off' (s.freeblock, { d with addrs := Function.update d.addrs (blocks off) s.freeblock })
      [.block s.freeblock] where
  grows := grows_taken s
  sound := sound_taken hs
  laid := by
    obtain ⟨-, hsz, -⟩ := consts
    refine ⟨dinodeOk_addr h.ok (by omega) (by omega), hoff, fun j hj => ?_, ?_, fun hn => by omega⟩
    · change Slot _ (Function.update d.addrs (blocks off) s.freeblock j) _
      by_cases hj' : j = blocks off
      · rw [hj', Function.update_self]
        exact .inl ⟨by omega, hs.low, Nat.lt_succ_self _⟩
      · rw [Function.update_of_ne hj']
        exact ((h.direct j hj).mono (Nat.le_succ _)).iff (by omega)
    · change Slot _ (Function.update d.addrs (blocks off) s.freeblock NDIRECT) _
      rw [Function.update_of_ne (by omega)]
      exact (h.single.mono (Nat.le_succ _)).iff (by omega)
  count := by
    unfold need
    rw [hb, if_neg (by omega), if_neg (by omega)]
    simp only [taken]
    omega
  found := ⟨hs.low, Nat.lt_succ_self _⟩
  apart hn := by omega
  last := .inr rfl
  change := .inr ⟨hq, by rw [← hq]; exact .direct hk⟩

theorem Placed.entry {off off' ind : Nat} {d : Dinode} (hs : Sound s) (htop : s.freeblock ≤ size)
    (h : Laid s.img s.freeblock off d)
    (hq : blocks off = off / BSIZE) (hb : blocks off' = blocks off + 1) (hk : NDIRECT < blocks off)
      (hoff : off' ≤ MAXFILE * BSIZE)
    (hi : ind = d.addrs NDIRECT) :
    Placed s (written (taken s) ind ((s.img ind).setWord (4 * (blocks off - NDIRECT)) s.freeblock)) d off off'
      (s.freeblock, d)
      ([.block s.freeblock] ++ [.sector ind .content]) := by
  obtain ⟨-, hsz, hd, -, hm, hbs, -, -⟩ := consts
  obtain ⟨hlo, hhi⟩ := h.single.range hk
  rw [← hi] at hlo hhi
  refine ⟨(grows_taken s).trans (grows_written hlo (by omega) _),
    sound_written (sound_taken hs) (Nat.lt_succ_of_lt hhi) _, ?_, ?_,
    ⟨hs.low, Nat.lt_succ_self _⟩, fun _ => by simp only; omega, .inr rfl, .inr ⟨hq, by rw [← hq, hi]; exact .entry hk⟩⟩
  · refine ⟨h.ok, hoff, fun j hj => ((h.direct j hj).mono (Nat.le_succ _)).iff (by omega),
      (h.single.mono (Nat.le_succ _)).iff (by omega), fun _ => ?_⟩
    simp only [written, ← hi, Function.update_self, hb]
    have he := h.entries hk
    rw [← hi] at he
    exact he.extend (by omega) (Nat.le_succ _) hs.low (Nat.lt_succ_self _) (by omega) (by omega)
  · unfold need
    rw [hb, if_pos (by omega), if_pos (by omega)]
    simp only [taken, written]
    omega

theorem Placed.single {off off' : Nat} {d : Dinode} (hs : Sound s) (htop : s.freeblock < size)
    (h : Laid s.img s.freeblock off d)
    (hq : blocks off = off / BSIZE) (hb : blocks off' = blocks off + 1) (hk : blocks off = NDIRECT)
      (hoff : off' ≤ MAXFILE * BSIZE) :
    Placed s
      (written (taken (taken s)) s.freeblock
      ((Mem.zero : Block).setWord (4 * (blocks off - NDIRECT)) (s.freeblock + 1))) d off off'
      (s.freeblock + 1, { d with addrs := Function.update d.addrs NDIRECT s.freeblock })
      ([.block s.freeblock] ++ ([.block (s.freeblock + 1)] ++ [.sector s.freeblock .content])) := by
  obtain ⟨hf, hsz, hd, -, hm, hbs, -, -⟩ := consts
  have hlow := hs.low
  refine ⟨(grows_taken s).trans ((grows_taken (taken s)).trans (grows_written hlow htop _)),
    sound_written (sound_taken (sound_taken hs)) (Nat.lt_succ_of_lt (Nat.lt_succ_self _)) _, ?_, ?_,
    ⟨Nat.le_succ_of_le hlow, Nat.lt_succ_self _⟩, fun _ => ?_, .inr rfl, .inr ⟨hq, by rw [← hq]; exact .single hk⟩⟩
  · refine ⟨dinodeOk_addr h.ok le_rfl (by omega), hoff, fun j hj => ?_, ?_, fun _ => ?_⟩
    · change Slot _ (Function.update d.addrs NDIRECT s.freeblock j) _
      rw [Function.update_of_ne (by omega)]
      exact ((h.direct j hj).mono (by simp only [written, taken]; omega)).iff (by omega)
    · change Slot _ (Function.update d.addrs NDIRECT s.freeblock NDIRECT) _
      rw [Function.update_self]
      exact .inl ⟨by omega, hlow, by simp only [written, taken]; omega⟩
    · simp only [written, Function.update_self, hb]
      have he : Entries s.freeblock (blocks off) s.freeblock Mem.zero := entries_zero (by omega) (by omega)
      exact he.extend (by omega) (by simp only [taken]; omega) (by omega) (by simp only [taken]; omega)
        (by omega) (by omega)
  · unfold need
    rw [hb, if_neg (by omega), if_pos (by omega)]
    simp only [taken, written]
    omega
  · simp only [Function.update_self]
    omega

/-- The block for the byte at off is there, or new; mkfs fails only when the blocks run out. -/
theorem block_ends {off off' : Nat} {d : Dinode} (hs : Sound s) (htop : s.freeblock ≤ size)
    (h : Laid s.img s.freeblock off d)
    (hlt : off < off') (hle : off' ≤ (off / 512 + 1) * 512) (hoff : off' ≤ MAXFILE * BSIZE) :
    (iappend.block d (off / BSIZE) s).Ends (size < s.freeblock + (need off' - need off)) fun r t e =>
      Placed s t d off off' r e := by
  obtain ⟨hf, hsz, hd, hni, hm, hbs, -, -⟩ := consts
  have hb' := blocks_at hlt hle
  have hmax : off / 512 < MAXFILE := by omega
  change (iappend.block d (off / 512) s).Ends _ _
  unfold iappend.block
  rw [ends_ite]
  refine ⟨fun hdir => ?_, fun hdir => ?_⟩
  · have hz := (h.direct _ hdir).zero_iff
    rw [ends_ite]
    refine ⟨fun hzero => ?_, fun hzero => ?_⟩
    · have hb : blocks off = off / 512 := by
        rcases blocks_cases off with hb | hb
        · exact hb.1
        · have := hz.mp hzero
          omega
      rw [ends_bind, ends_newBlock, ends_pure, ← hb, List.append_nil]
      exact .direct hs htop h hb (by omega) (by omega) hoff
    · have hin : off / 512 < blocks off := by
        by_contra hn
        exact hzero (hz.mpr hn)
      have hb : blocks off = off / 512 + 1 := by
        rcases blocks_cases off with hb | hb <;> omega
      rw [ends_pure]
      exact .old hs h (by omega) hoff ((h.direct _ hdir).range hin) (fun hn => by omega) (if_pos hdir).symm
  · have hz := h.single.zero_iff
    rw [ends_bind, ends_ite]
    refine ⟨fun hzero => ?_, fun hzero => ?_⟩
    · -- The indirect block is new, and empty.
      have hb : blocks off = NDIRECT ∧ off / 512 = NDIRECT := by
        have := hz.mp hzero
        rcases blocks_cases off with hb | hb <;> omega
      have hempty : (taken s).img s.freeblock = Mem.zero := hs.fresh _ le_rfl
      have hneed : need off' - need off = 2 := by
        unfold need
        rw [hb', if_pos (by omega), if_neg (by omega)]
        omega
      rw [ends_bind, ends_newBlock, ends_pure, ends_bind, ends_rsect]
      simp only [Function.update_self, hempty]
      refine ⟨fun hfull => by omega, fun hroom => ?_⟩
      rw [ends_ite]
      refine ⟨fun _ => ?_, fun hne => absurd (Mem.word_zero _) hne⟩
      rw [ends_bind, ends_newBlock, ends_bind, ends_wsect, ends_pure]
      have hplaced : Placed s _ d off off' _ _ := .single hs hroom h (hb.1.trans hb.2.symm) (by omega) hb.1 hoff
      rw [hb.1] at hplaced
      rw [hb.2]
      exact hplaced
    · have hin : NDIRECT < blocks off := by
        by_contra hn
        exact hzero (hz.mpr hn)
      obtain ⟨hlo, hhi⟩ := h.single.range hin
      rw [ends_pure, ends_bind, ends_rsect]
      refine ⟨fun hfull => by omega, fun _ => ?_⟩
      obtain ⟨hslot, hne⟩ := h.entries hin (off / 512 - NDIRECT) (by omega)
      have hw := hslot.zero_iff
      rw [ends_ite]
      refine ⟨fun hword => ?_, fun hword => ?_⟩
      · have hb : blocks off = off / 512 := by
          have := hw.mp hword
          rcases blocks_cases off with hb | hb <;> omega
        rw [ends_bind, ends_newBlock, ends_bind, ends_wsect, ends_pure, ← hb]
        exact .entry hs htop h hb (by omega) hin hoff rfl
      · have hused : NDIRECT + (off / 512 - NDIRECT) < blocks off := by
          by_contra hn
          exact hword (hw.mpr hn)
        have hb : blocks off = off / 512 + 1 := by
          rcases blocks_cases off with hb | hb <;> omega
        rw [ends_pure]
        exact .old hs h (by omega) hoff (hslot.range hused) (fun _ => hne) (if_neg hdir).symm

theorem need_mono {a b : Nat} (h : a ≤ b) : need a ≤ need b := by
  have hb : blocks a ≤ blocks b := by
    unfold blocks
    omega
  unfold need
  split <;> split <;> omega

structure Appended (s t : Tool) (off off' : Nat) (d : Dinode) (e : List Mkfs.Event) : Prop where
  grows : Grows s t e
  sound : Sound t
  top : t.freeblock ≤ size
  laid : Laid t.img t.freeblock off' d
  count : t.freeblock + need off = s.freeblock + need off'

theorem Appended.refl {off : Nat} {d : Dinode} (hs : Sound s) (htop : s.freeblock ≤ size)
    (h : Laid s.img s.freeblock off d) :
    Appended s s off off d [] := ⟨.refl s, hs, htop, h, rfl⟩

theorem Appended.trans {off off₁ off' : Nat} {d d' : Dinode} (h : Appended s t off off₁ d e)
    (h' : Appended t u off₁ off' d' e') :
    Appended s u off off' d' (e ++ e') where
  grows := h.grows.trans h'.grows
  sound := h'.sound
  top := h'.top
  laid := h'.laid
  count := by
    have hs := h.count
    have ht := h'.count
    omega

theorem Placed.fill {off off' x : Nat} {d d₀ : Dinode} (h : Placed s t d₀ off off' (x, d) e)
    (htop : s.freeblock ≤ size) (hx : x < size) (b : Block) :
    Appended s (written t x b) off off' d (e ++ [.sector x .content]) where
  grows := h.grows.trans (grows_written h.found.1 hx b)
  sound := sound_written h.sound h.found.2 b
  top := by
    change t.freeblock ≤ size
    rcases h.last with hl | hl
    · rw [hl]
      exact htop
    · rw [hl]
      exact hx
  laid := h.laid.write h.apart b
  count := h.count

/-- What goes wrong when n bytes are appended at off: the file or the disk is full. -/
def Full (s : Tool) (off n : Nat) : Prop := MAXFILE * BSIZE < off + n ∨ size < s.freeblock + (need (off + n) - need off)

theorem Full.later {off off' n n' : Nat} (h : Full t off' n') (ha : t.freeblock + need off = s.freeblock + need off')
    (hn : off' + n' = off + n) (hoff : off ≤ off') : Full s off n := by
  have hm := need_mono hoff
  have hm' := need_mono (show off' ≤ off' + n' by omega)
  rcases h with h | h
  · exact .inl (by omega)
  · refine .inr ?_
    rw [hn] at h hm'
    omega

theorem loop_ends {fuel off : Nat} {p : List UInt8} {d : Dinode} (hp : p.length ≤ fuel) (hs : Sound s)
    (htop : s.freeblock ≤ size)
    (h : Laid s.img s.freeblock off d) :
    (iappend.loop fuel off p d s).Ends (Full s off p.length) fun r t e => r.1 = off + p.length ∧
      Appended s t off r.1 r.2 e := by
  obtain ⟨hf, hsz, -, -, hm, hmb, -, -⟩ := consts
  induction fuel generalizing off p d s with
  | zero =>
      unfold iappend.loop
      rw [ends_pure]
      exact ⟨by simp only; omega, .refl hs htop h⟩
  | succ fuel ih =>
      unfold iappend.loop
      rw [ends_ite]
      refine ⟨fun hpos => ?_, fun hpos => ?_⟩
      · have hblk : off / BSIZE = off / 512 := rfl
        rw [ends_ite]
        refine ⟨fun hmax => ?_, fun hmax => ?_⟩
        · rw [ends_panic]
          exact .inl (by omega)
        · obtain ⟨n1, hn1⟩ : ∃ n1, n1 = min p.length ((off / BSIZE + 1) * BSIZE - off) := ⟨_, rfl⟩
          have hsize : n1 = min p.length ((off / 512 + 1) * 512 - off) := hn1
          have hlen := List.length_drop (i := n1) (l := p)
          have hmono := need_mono (show off + n1 ≤ off + p.length by omega)
          have hmono' := need_mono (show off ≤ off + n1 by omega)
          have hblock :
              (iappend.block d (off / BSIZE) s).Ends (size < s.freeblock + (need (off + n1) - need off)) fun r t e =>
              Placed s t d off (off + n1) r e := block_ends hs htop h (by omega) (by omega) (by omega)
          rw [ends_bind, ← hn1]
          refine hblock.mono (fun r t e hpl => ?_) fun hfull => .inr (by omega)
          obtain ⟨x, d'⟩ := r
          have hcount := hpl.count
          have hfound : x < t.freeblock := hpl.found.2
          simp only
          rw [ends_bind, ends_rsect]
          refine ⟨fun hfull => .inr (by omega), fun hx => ?_⟩
          rw [ends_bind, ends_wsect]
          have hap := hpl.fill htop hx ((t.img x).setSlice (off - off / BSIZE * BSIZE) (p.take n1))
          refine (ih (by omega) hap.sound hap.top hap.laid).mono (fun r u e' hr => ?_) fun hfull =>
            hfull.later hap.count (by omega) (by omega)
          obtain ⟨hr, hap'⟩ := hr
          refine ⟨by omega, ?_⟩
          have hall := hap.trans hap'
          simpa only [List.append_assoc, List.nil_append] using hall
      · rw [ends_pure]
        exact ⟨by simp only; omega, .refl hs htop h⟩

def inodeOf (s : Tool) (i : Nat) : Dinode := dinodeAt (s.img (IBLOCK i)) (i % IPB)

/-- Inode i is a file of sz bytes. -/
def Has (s : Tool) (i sz : Nat) : Prop := (inodeOf s i).size = sz ∧ Laid s.img s.freeblock sz (inodeOf s i)

/-- The other inodes are as they were, and the image is sound. -/
structure Wrote (s t : Tool) (inum : Nat) (e : List Mkfs.Event) : Prop where
  sound : Sound t
  top : t.freeblock ≤ size
  others : ∀ i < ninodes, i ≠ inum → inodeOf t i = inodeOf s i
  freeblock : s.freeblock ≤ t.freeblock
  super : t.img 1 = s.img 1
  clean : Clean e

theorem Wrote.trans {inum : Nat} (h : Wrote s t inum e) (h' : Wrote t u inum e') : Wrote s u inum (e ++ e') where
  sound := h'.sound
  top := h'.top
  others i hi hne := (h'.others i hi hne).trans (h.others i hi hne)
  freeblock := h.freeblock.trans h'.freeblock
  super := h'.super.trans h.super
  clean := h.clean.append h'.clean

theorem iblock_lt {i : Nat} (hi : i < ninodes) : IBLOCK i < firstFree ∧ IBLOCK i < size := by
  obtain ⟨hf, hs, -, -, -, -, hp, hn⟩ := consts
  unfold IBLOCK
  rw [hp]
  omega

theorem ends_rinode {E : Prop} {Q : Dinode → Tool → List Mkfs.Event → Prop} {i : Nat} (hi : i < ninodes) (s : Tool) :
    (rinode i s).Ends E Q ↔ Q (inodeOf s i) s [] := by
  unfold rinode
  rw [ends_bind, ends_rsect]
  simp only [(iblock_lt hi).2, not_le.mpr (iblock_lt hi).2, false_implies, true_implies, true_and, ends_pure,
    List.nil_append, inodeOf]

def withInode (s : Tool) (i : Nat) (d : Dinode) : Tool :=
  written s (IBLOCK i) (setDinode (s.img (IBLOCK i)) (i % IPB) d)

theorem ends_winode {E : Prop} {Q : Unit → Tool → List Mkfs.Event → Prop} {i : Nat} (hi : i < ninodes) (d : Dinode)
    (s : Tool) :
    (winode i d s).Ends E Q ↔ Q () (withInode s i d) [.sector (IBLOCK i) .inode] := by
  unfold winode
  rw [ends_bind, ends_rsect]
  simp only [(iblock_lt hi).2, not_le.mpr (iblock_lt hi).2, false_implies, true_implies, true_and, ends_wsect,
    List.nil_append, withInode]

theorem super_withInode (s : Tool) (i : Nat) (d : Dinode) : (withInode s i d).img 1 = s.img 1 := by
  have hne : 1 ≠ IBLOCK i := Nat.ne_of_lt (Nat.le_add_left 2 (i / IPB))
  exact Function.update_of_ne hne (setDinode (s.img (IBLOCK i)) (i % IPB) d) s.img

theorem inodeOf_self (s : Tool) (i : Nat) {d : Dinode} (hd : DinodeOk d) : inodeOf (withInode s i d) i = d := by
  unfold inodeOf withInode written
  simp only [Function.update_self]
  exact dinodeAt_setDinode_self _ _ (Nat.mod_lt _ (by decide)) _ hd

theorem inodeOf_other (s : Tool) {i j : Nat} (hne : j ≠ i) (d : Dinode) :
    inodeOf (withInode s i d) j = inodeOf s j := by
  obtain ⟨-, -, -, -, -, -, hp, -⟩ := consts
  unfold inodeOf withInode written
  by_cases hb : IBLOCK j = IBLOCK i
  · have hk : j % IPB ≠ i % IPB := by
      unfold IBLOCK at hb
      rw [hp] at hb ⊢
      omega
    simp only [hb, Function.update_self]
    exact dinodeAt_setDinode_of_ne _ _ _ hk d
  · simp only [Function.update_of_ne hb]

theorem inodeOf_congr {i : Nat} (hi : i < ninodes) (h : ∀ sec < firstFree, t.img sec = s.img sec) :
    inodeOf t i = inodeOf s i := by
  unfold inodeOf
  rw [h _ (iblock_lt hi).1]

theorem sound_withInode (h : Sound s) {i : Nat} (hi : i < ninodes) (d : Dinode) : Sound (withInode s i d) :=
  sound_written h (lt_of_lt_of_le (iblock_lt hi).1 h.low) _

theorem laid_withInode {i off : Nat} {d d' : Dinode} (h : Laid s.img s.freeblock off d) (hi : i < ninodes) :
    Laid (withInode s i d').img (withInode s i d').freeblock off d := by
  refine h.write (fun hn => ?_) _
  have hlo := (h.single.range hn).1
  have hlt := (iblock_lt hi).1
  omega

theorem Laid.resize {img : Nat → Block} {f off : Nat} {d : Dinode} (h : Laid img f off d) :
    Laid img f off { d with size := off } where
  ok := by
    obtain ⟨-, -, -, -, -, hmb, -, -⟩ := consts
    have hb := h.bound
    have hk := h.ok
    exact ⟨hk.type, hk.major, hk.minor, hk.nlink, by simp only; omega, hk.addrs, hk.none⟩
  bound := h.bound
  direct := h.direct
  single := h.single
  entries := h.entries

theorem Has.keep {i sz : Nat} (h : Has s i sz) (hi : inodeOf t i = inodeOf s i) (hf : s.freeblock ≤ t.freeblock)
    (hsz : blocks sz ≤ NDIRECT) :
    Has t i sz := by
  obtain ⟨hsize, hl⟩ := h
  unfold Has
  rw [hi]
  exact ⟨hsize, hl.ok, hl.bound, fun j hj => (hl.direct j hj).mono hf, hl.single.mono hf, fun hn => by omega⟩

theorem iappend_ends {inum sz : Nat} (p : List UInt8) (hi : inum < ninodes) (hs : Sound s) (htop : s.freeblock ≤ size)
    (h : Has s inum sz) :
    (iappend inum p s).Ends (Full s sz p.length) fun _ t e =>
      Wrote s t inum e ∧ Has t inum (sz + p.length) ∧ t.freeblock + need sz = s.freeblock + need (sz + p.length) := by
  obtain ⟨hsize, hl⟩ := h
  unfold iappend
  rw [ends_bind, ends_rinode hi, ends_bind, hsize]
  refine (loop_ends le_rfl hs htop hl).mono (fun r t e hr => ?_) id
  obtain ⟨off, d⟩ := r
  obtain ⟨hoff, ha⟩ := hr
  simp only at hoff ha ⊢
  rw [ends_winode hi, List.nil_append]
  subst hoff
  have hcount := ha.count
  have hmono := need_mono (show sz ≤ sz + p.length by omega)
  refine ⟨⟨sound_withInode ha.sound hi _, ha.top, fun i hlt hne => ?_, ?_, ?_,
    ha.grows.clean.append (clean_winode hi)⟩, ?_, hcount⟩
  · rw [inodeOf_other _ hne]
    exact inodeOf_congr hlt ha.grows.sectors
  · change s.freeblock ≤ t.freeblock
    omega
  · rw [super_withInode]
    exact ha.grows.sectors 1 (by decide)
  · unfold Has
    rw [inodeOf_self _ _ ha.laid.resize.ok]
    exact ⟨rfl, laid_withInode ha.laid.resize hi⟩

theorem appendFile_ends {inum sz fuel : Nat} {data : List UInt8} (hfuel : data.length < fuel) (hi : inum < ninodes)
    (hs : Sound s)
    (htop : s.freeblock ≤ size) (h : Has s inum sz) :
    (appendFile inum fuel data s).Ends (Full s sz data.length) fun _ t e =>
      Wrote s t inum e ∧ Has t inum (sz + data.length) ∧
        t.freeblock + need sz = s.freeblock + need (sz + data.length) := by
  induction fuel generalizing sz data s with
  | zero => omega
  | succ fuel ih =>
      unfold appendFile
      rw [ends_ite]
      refine ⟨fun hnil => ?_, fun hnil => ?_⟩
      · rw [ends_pure, hnil]
        exact ⟨⟨hs, htop, fun _ _ _ => rfl, le_rfl, rfl, clean_nil⟩, h, rfl⟩
      · have hpos : 0 < data.length := List.length_pos_iff.mpr hnil
        have htake := List.length_take (i := 512) (l := data)
        have hdrop := List.length_drop (i := 512) (l := data)
        have hmono := need_mono (show sz + (data.take 512).length ≤ sz + data.length by omega)
        rw [ends_bind]
        refine (iappend_ends (data.take 512) hi hs htop h).mono (fun _ t e hr => ?_) fun hfull => ?_
        · obtain ⟨hw, hhas, hcount⟩ := hr
          refine (ih (by omega) hw.sound hw.top hhas).mono (fun _ u e' hr => ?_) fun hfull =>
            hfull.later hcount (by omega) (by omega)
          obtain ⟨hw', hhas', hcount'⟩ := hr
          have hlen : sz + (data.take 512).length + (data.drop 512).length = sz + data.length := by omega
          rw [hlen] at hhas' hcount'
          exact ⟨hw.trans hw', hhas', by omega⟩
        · rcases hfull with hfull | hfull
          · exact .inl (by omega)
          · exact .inr (by omega)

theorem ialloc_ends (type : Nat) (htype : type < 2 ^ 16) (hi : s.freeinode < ninodes) (hs : Sound s)
    (htop : s.freeblock ≤ size) :
    (Mkfs.ialloc type s).Ends False fun r t e => r = s.freeinode ∧ t.freeinode = s.freeinode + 1 ∧
      t.freeblock = s.freeblock ∧
      Wrote s t s.freeinode e ∧ Has t s.freeinode 0 := by
  have hok : DinodeOk { emptyDinode with type := type, nlink := 1 } :=
    ⟨htype, (by decide : 0 < 2 ^ 16), (by decide : 0 < 2 ^ 16), (by decide : 1 < 2 ^ 16), (by decide : 0 < 2 ^ 32),
      fun _ => (by decide : 0 < 2 ^ 32), fun _ _ => rfl⟩
  unfold Mkfs.ialloc
  rw [ends_bind, ends_fetch, ends_bind, ends_emit, ends_bind, ends_update, ends_bind, ends_winode hi, ends_pure]
  have hs' : Sound { s with freeinode := s.freeinode + 1 } := ⟨hs.low, hs.used, hs.fresh⟩
  refine ⟨rfl, rfl, rfl,
    ⟨sound_withInode hs' hi _, htop, fun i hlt hne => inodeOf_other _ hne _, le_rfl, super_withInode _ _ _,
    (clean_inode _).append (clean_winode hi)⟩, ?_⟩
  unfold Has
  rw [inodeOf_self _ _ hok]
  refine ⟨rfl, laid_withInode (s := { s with freeinode := s.freeinode + 1 }) ⟨hok, Nat.zero_le _, fun j hj => ?_, ?_,
    fun hn => absurd hn (by decide)⟩ hi⟩
  · exact .inr ⟨Nat.not_lt_zero j, rfl⟩
  · exact .inr ⟨by decide, rfl⟩

variable {files : List (List UInt8 × List UInt8)}

def contents (files : List (List UInt8 × List UInt8)) : Nat := (files.map fun f => need f.2.length).sum

/-- The blocks that the image needs: the root directory has an entry for each file and two more. -/
def total (files : List (List UInt8 × List UInt8)) : Nat := need (DESIZE * (files.length + 2)) + contents files

theorem length_entry (i : Nat) (name : List UInt8) : (encodeDirent ⟨i, strncpy name DIRSIZ⟩).length = DESIZE := by
  unfold encodeDirent
  rw [List.length_append, length_leBytes, Directory.length_strncpy]
  rfl

theorem blocks_root {sz : Nat} (h : sz ≤ NDIRECT * BSIZE) : blocks sz ≤ NDIRECT := by
  have hmax : sz ≤ 12 * 512 := h
  change blocks sz ≤ 12
  unfold blocks
  omega

/-- An entry for the root directory, which stays small; it fails only when the disk is full. -/
theorem iappend_root {sz : Nat} (i : Nat) (name : List UInt8) (hs : Sound s) (htop : s.freeblock ≤ size)
    (h : Has s ROOTINO sz)
    (hsz : sz + DESIZE ≤ NDIRECT * BSIZE) :
    (iappend ROOTINO (encodeDirent ⟨i, strncpy name DIRSIZ⟩) s).Ends
      (size < s.freeblock + (need (sz + DESIZE) - need sz)) fun _ t e =>
      Wrote s t ROOTINO e ∧ Has t ROOTINO (sz + DESIZE) ∧ t.freeblock + need sz = s.freeblock + need (sz + DESIZE) ∧
        t.freeinode = s.freeinode := by
  have hends :=
    (iappend_ends (encodeDirent ⟨i, strncpy name DIRSIZ⟩) (by decide) hs htop h).and (recording_iappend ROOTINO _ s)
  rw [length_entry] at hends
  refine hends.mono (fun _ t e hr => ⟨hr.1.1, hr.1.2.1, hr.1.2.2, hr.2.freeinode⟩) fun hfull => ?_
  rcases hfull with hfull | hfull
  · have hmax : MAXFILE * BSIZE = 71680 := rfl
    have hdir : NDIRECT * BSIZE = 6144 := rfl
    omega
  · exact hfull

/-- A file with its inode and its entry. It fails only when it is too large or the disk is full. -/
theorem addFiles_ends {sz : Nat} (hs : Sound s) (htop : s.freeblock ≤ size) (h : Has s ROOTINO sz)
    (hroot : ROOTINO < s.freeinode)
    (hi : s.freeinode + files.length ≤ ninodes) (hsz : sz + DESIZE * files.length ≤ NDIRECT * BSIZE) :
    (addFiles ROOTINO files s).Ends ((∃ f ∈ files, MAXFILE * BSIZE < f.2.length) ∨
        size < s.freeblock + (need (sz + DESIZE * files.length) - need sz) + contents files) fun _ t e =>
      Sound t ∧ t.freeblock ≤ size ∧
        t.freeblock + need sz = s.freeblock + need (sz + DESIZE * files.length) + contents files ∧ Clean e := by
  have hde : DESIZE = 16 := rfl
  induction files generalizing sz s with
  | nil =>
      unfold addFiles
      rw [ends_pure]
      exact ⟨hs, htop, rfl, clean_nil⟩
  | cons file rest ih =>
      obtain ⟨arg, data⟩ := file
      rw [List.length_cons] at hi hsz ⊢
      have hcontents : contents ((arg, data) :: rest) = need data.length + contents rest := List.sum_cons
      have hmul : DESIZE * (rest.length + 1) = DESIZE + DESIZE * rest.length := by rw [Nat.mul_succ, Nat.add_comm]
      have hmono := need_mono (show sz ≤ sz + DESIZE by omega)
      have hmono' := need_mono (show sz + DESIZE ≤ sz + DESIZE * (rest.length + 1) by omega)
      have hzero : need 0 = 0 := rfl
      have hsmall : blocks sz ≤ NDIRECT := blocks_root (by omega)
      have hsmall' : blocks (sz + DESIZE) ≤ NDIRECT := blocks_root (by omega)
      unfold addFiles
      rw [ends_bind]
      refine (ialloc_ends T_FILE (by decide) (by omega) hs htop).mono (fun inum t e hr => ?_) False.elim
      obtain ⟨rfl, hnext, hfb, hw, hfile⟩ := hr
      have hhas := h.keep (hw.others _ (by decide) hroot.ne) hw.freeblock hsmall
      rw [ends_bind]
      refine (iappend_root _ _ hw.sound hw.top hhas (by omega)).mono (fun _ t₁ e₁ hr => ?_) fun hfull => .inr (by omega)
      obtain ⟨hw₁, hhas₁, hcount₁, hnext₁⟩ := hr
      have hfile₁ := hfile.keep (hw₁.others _ (by omega) hroot.ne') hw₁.freeblock (by decide)
      rw [ends_bind]
      refine ((appendFile_ends (Nat.lt_succ_self _) (by omega) hw₁.sound hw₁.top hfile₁).and
        (recording_appendFile _ _ _ t₁)).mono
        (fun _ t₂ e₂ hr => ?_) fun hfull => ?_
      · obtain ⟨⟨hw₂, -, hcount₂⟩, hrec⟩ := hr
        have hnext₂ := hrec.freeinode
        have hhas₂ := hhas₁.keep (hw₂.others _ (by decide) hroot.ne) hw₂.freeblock hsmall'
        rw [Nat.zero_add] at hcount₂
        have hsum : sz + DESIZE + DESIZE * rest.length = sz + DESIZE * (rest.length + 1) := by omega
        have hrest := ih hw₂.sound hw₂.top hhas₂ (by omega) (by omega) (by omega)
        rw [hsum] at hrest
        refine hrest.mono (fun _ t₃ e₃ hr => ?_) fun hfull => ?_
        · obtain ⟨hs₃, htop₃, hcount₃, hc₃⟩ := hr
          exact ⟨hs₃, htop₃, by omega, hw.clean.append (hw₁.clean.append (hw₂.clean.append hc₃))⟩
        · rcases hfull with ⟨f, hf, hlong⟩ | hfull
          · exact .inl ⟨f, List.mem_cons_of_mem _ hf, hlong⟩
          · exact .inr (by omega)
      · rcases hfull with hfull | hfull
        · exact .inl ⟨(arg, data), List.mem_cons_self, by simp only; omega⟩
        · rw [Nat.zero_add] at hfull
          exact .inr (by omega)

theorem sound_start : Sound start where
  low := le_rfl
  used := rfl
  fresh b hb := by
    have hne : b ≠ 1 := by
      have hlow : 29 ≤ b := hb
      omega
    exact Function.update_of_ne hne superblock fun _ => Mem.zero

theorem clean_bitmap : Clean [.sector (ninodes / IPB + 3) .bitmap] := by
  intro sec kind hm
  cases List.mem_singleton.mp hm
  exact ⟨by decide, fun _ => rfl⟩

/-- mkfs for at most 198 files: it fails only when a file is too large or the disk is full, and
takes exactly the blocks that
are needed. -/
theorem main_ends (hn : files.length + 2 ≤ ninodes) : (main files start).Ends
    ((∃ f ∈ files, MAXFILE * BSIZE < f.2.length) ∨ size < firstFree + total files) fun _ t e =>
      t.freeblock = firstFree + total files ∧ Clean e := by
  have hde : DESIZE = 16 := rfl
  have hnin : ninodes = 200 := rfl
  have hdir : NDIRECT * BSIZE = 6144 := rfl
  have hfull : size = 1024 ∧ firstFree = 29 := ⟨rfl, rfl⟩
  have hroot : start.freeinode = ROOTINO := rfl
  have hone : ROOTINO = 1 := rfl
  have hmul : DESIZE * files.length = 16 * files.length := rfl
  have hneed : need 0 = 0 ∧ need DESIZE = 1 ∧ need (DESIZE + DESIZE) = 1 := by decide
  have htotal : need (DESIZE + DESIZE + DESIZE * files.length) + contents files = total files := by
    unfold total
    rw [Nat.mul_add, Nat.add_comm (DESIZE * files.length), Nat.mul_two]
  have hmono := need_mono (show DESIZE + DESIZE ≤ DESIZE + DESIZE + DESIZE * files.length by omega)
  unfold main
  rw [ends_bind]
  refine (ialloc_ends T_DIR (by decide) (by decide) sound_start (by decide)).mono (fun r t e hr => ?_) False.elim
  obtain ⟨rfl, hnext, hfb, hw, hhas⟩ := hr
  rw [hroot] at hnext hw hhas ⊢
  have hstart : start.freeblock = firstFree := rfl
  rw [ends_ite]
  refine ⟨fun hne => absurd rfl hne, fun _ => ?_⟩
  rw [ends_bind]
  refine (iappend_root _ [46] hw.sound hw.top hhas (by decide)).mono (fun _ t₁ e₁ hr => ?_) fun hf => by
    rw [Nat.zero_add] at hf
    omega
  obtain ⟨hw₁, hhas₁, hcount₁, hnext₁⟩ := hr
  rw [Nat.zero_add] at hhas₁ hcount₁
  rw [ends_bind]
  refine (iappend_root _ [46, 46] hw₁.sound hw₁.top hhas₁ (by decide)).mono (fun _ t₂ e₂ hr => ?_) fun hf => by omega
  obtain ⟨hw₂, hhas₂, hcount₂, hnext₂⟩ := hr
  rw [ends_bind]
  refine (addFiles_ends hw₂.sound hw₂.top hhas₂ (by omega) (by omega) (by omega)).mono (fun _ t₃ e₃ hr =>
    ?_) fun hf => ?_
  · obtain ⟨hs₃, htop₃, hcount₃, hc₃⟩ := hr
    have hused := hs₃.used
    rw [ends_bind, ends_rinode (by decide), ends_bind, ends_winode (by decide), ends_bind, ends_fetch]
    unfold Mkfs.balloc
    rw [ends_ite]
    refine ⟨fun hmax => ?_, fun _ => ?_⟩
    · change 512 * 8 ≤ t₃.usedblocks at hmax
      omega
    · rw [ends_wsect]
      refine ⟨?_, ?_⟩
      · change t₃.freeblock = firstFree + total files
        omega
      · exact hw.clean.append (hw₁.clean.append (hw₂.clean.append (hc₃.append
          (clean_nil.append ((clean_winode (by decide)).append (clean_nil.append clean_bitmap))))))
  · rcases hf with hf | hf
    · exact .inl hf
    · exact .inr (by omega)

theorem main_records {r : Unit} (hrun : main files start = .ok r t e) : Records (1 + files.length) start t e :=
  (recording_main files start).ok hrun

/-- A run whose events are as they should be has few files, which fit. -/
theorem fits_of_events {r : Unit} (hrun : main files start = .ok r t e) (he : ∀ ev ∈ e, Fitting ev) :
    files.length + 2 ≤ ninodes ∧ total files ≤ nblocks := by
  have hrec := main_records hrun
  have hlast := hrec.freeinode
  have hroot : start.freeinode = 1 := rfl
  have hstart : start.freeblock = 29 := rfl
  have hconst : ninodes = 200 ∧ nblocks = 985 ∧ firstFree = 29 ∧ size - nlog = 1014 := by decide
  have hn : 1 + files.length < ninodes := he _ ((hrec.inode (1 + files.length)).mpr ⟨by omega, by omega⟩)
  obtain ⟨hfb, -⟩ := (main_ends (by omega)).ok hrun
  refine ⟨by omega, ?_⟩
  by_contra hbig
  have hb : firstFree ≤ 1014 ∧ 1014 < size - nlog := he _ ((hrec.block 1014).mpr ⟨by omega, by omega⟩)
  omega

/-- mkfs ends with nothing outside of its layout exactly when there are at most 198 files and their
blocks fit below the log. -/
theorem mkfs_fits_iff {r : Unit} (hrun : main files start = .ok r t e) :
    (∀ ev ∈ e, Fitting ev) ↔ files.length + 2 ≤ ninodes ∧ total files ≤ nblocks := by
  refine ⟨fits_of_events hrun, fun hfit => ?_⟩
  obtain ⟨hn, hblocks⟩ := hfit
  obtain ⟨hfb, hclean⟩ := (main_ends hn).ok hrun
  have hrec := main_records hrun
  have hlast := hrec.freeinode
  have hroot : start.freeinode = 1 := rfl
  have hstart : start.freeblock = 29 := rfl
  have hconst : ninodes = 200 ∧ nblocks = 985 ∧ firstFree = 29 ∧ size - nlog = 1014 := by decide
  intro ev hev
  cases ev with
  | inode i =>
      have hi := (hrec.inode i).mp hev
      change i < ninodes
      omega
  | block b =>
      have hb := (hrec.block b).mp hev
      change firstFree ≤ b ∧ b < size - nlog
      omega
  | sector sec kind => exact hclean sec kind hev

theorem main_total (hn : files.length + 2 ≤ ninodes) (hsmall : ∀ f ∈ files, f.2.length ≤ MAXFILE * BSIZE)
    (hfit : firstFree + total files ≤ size) :
    ∃ t e, main files start = .ok () t e := by
  have hno : ¬((∃ f ∈ files, MAXFILE * BSIZE < f.2.length) ∨ size < firstFree + total files) := by
    rintro (⟨f, hf, hlong⟩ | hfull)
    · exact absurd hlong (not_lt.mpr (hsmall f hf))
    · omega
  obtain ⟨r, t, e, hrun, -⟩ := (main_ends hn).total hno
  exact ⟨t, e, hrun⟩

/-- An empty file, one of two bytes, and one of two blocks. -/
def few : List (List UInt8 × List UInt8) := [([97], []), ([98], [104, 105]), ([99], List.replicate 600 7)]

theorem mkfs_fits_few : ∃ t e, main few start = .ok () t e ∧
    ((∀ ev ∈ e, Fitting ev) ↔ 3 + 2 ≤ ninodes ∧ total few ≤ nblocks) := by
  have hsmall : ∀ f ∈ few, f.2.length ≤ MAXFILE * BSIZE := by decide +kernel
  obtain ⟨t, e, hrun⟩ : ∃ t e, main few start = .ok () t e := main_total (by decide) hsmall (by decide +kernel)
  exact ⟨t, e, hrun, mkfs_fits_iff hrun⟩

theorem contents_replicate (n : Nat) (f : List UInt8 × List UInt8) :
    contents (List.replicate n f) = n * need f.2.length := by
  unfold contents
  rw [List.map_replicate, List.sum_replicate_nat]

def largest : List UInt8 × List UInt8 := ([97], List.replicate (MAXFILE * BSIZE) 0)

theorem length_largest : largest.2.length = MAXFILE * BSIZE := by
  unfold largest
  rw [List.length_replicate]

/-- Seven of them. -/
def crowd : List (List UInt8 × List UInt8) := List.replicate 7 largest

theorem length_crowd : crowd.length = 7 := by
  unfold crowd
  rw [List.length_replicate]

-- The sum is taken apart before it is one of numbers, which the kernel would work out.
theorem total_replicate (n : Nat) (f : List UInt8 × List UInt8) :
    total (List.replicate n f) = need (DESIZE * (n + 2)) + n * need f.2.length := by
  unfold total
  rw [List.length_replicate, contents_replicate]

theorem total_crowd : total crowd = 988 := by
  have hone : need (MAXFILE * BSIZE) = 141 := by decide
  have hcrowd : crowd = List.replicate 7 largest := rfl
  rw [hcrowd, total_replicate, length_largest, hone]
  decide

/-- mkfs ends with status 0, and three of the blocks that it has handed out are in the log. -/
theorem mkfs_overfills : ∃ t e, main crowd start = .ok () t e ∧ ¬∀ ev ∈ e, Fitting ev := by
  have hsmall : ∀ f ∈ crowd, f.2.length ≤ MAXFILE * BSIZE := by
    intro f hf
    unfold crowd at hf
    rw [List.eq_of_mem_replicate hf, length_largest]
  obtain ⟨t, e, hrun⟩ := main_total (by rw [length_crowd]; decide) hsmall (by rw [total_crowd]; decide)
  refine ⟨t, e, hrun, fun he => ?_⟩
  have hfits := (fits_of_events hrun he).2
  rw [total_crowd] at hfits
  revert hfits
  decide

end ArmXv6.MkfsLayout
