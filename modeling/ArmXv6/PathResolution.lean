import ArmXv6.PathWalk
import ArmXv6.Chunks
import ArmXv6.Exec

namespace ArmXv6.PathResolution

open Lib.Exec Lib.Bytes Param Blocks Fs Content DiskImage BlockSpecs BlockAlloc Ownership BlockMap FileData InodeSpecs
  Namespace Directory DirectoryMap PathWalk Chunks

/-- The runs of characters between the slashes of a path, cut to what a directory entry holds. -/
def comps (path : List UInt8) : List (List UInt8) := ((path.splitOn slash).filter (· ≠ [])).map (List.take DIRSIZ)

/-- One lookup after the other, from inode i on. -/
def walk (T : Names) : Nat → List (List UInt8) → Option Nat
  | i, [] => some i
  | i, name :: rest =>
      if (T i).type ≠ T_DIR then none
      else
        match lookup (T i).entries name with
        | none => none
        | some de => walk T de.inum rest

/-- Where a path starts, for a process in directory cwd. -/
def start (cwd : Nat) (path : List UInt8) : Nat := if path.head? = some slash then ROOTINO else cwd

/-- The directory that is reached by all components but the last, and the last one. -/
def parentOf (T : Names) (i : Nat) (names : List (List UInt8)) : Option (Nat × List UInt8) :=
  match names.getLast? with
  | none => none
  | some last => (walk T i names.dropLast).bind fun d => if (T d).type = T_DIR then some (d, last) else none

/-- The text with its final NUL is in memory at address p. -/
def Text (mem : Nat → UInt8) : Nat → List UInt8 → Prop
  | p, [] => mem p = 0
  | p, c :: rest => mem p = c ∧ c ≠ 0 ∧ Text mem (p + 1) rest

def skipelemAt.slashes (mem : Nat → UInt8) : Nat → Nat → Nat
  | 0, p => p
  | fuel + 1, p => if mem p = slash then skipelemAt.slashes mem fuel (p + 1) else p

def skipelemAt.run (mem : Nat → UInt8) : Nat → Nat → Nat
  | 0, p => p
  | fuel + 1, p => if mem p ≠ slash ∧ mem p ≠ 0 then skipelemAt.run mem fuel (p + 1) else p

def bytes (mem : Nat → UInt8) (p n : Nat) : List UInt8 := (List.range n).map fun j => mem (p + j)

/-- skipelem with its pointers and its buffer: where the path goes on, and what name holds then. -/
def skipelemAt (mem : Nat → UInt8) (fuel path : Nat) (name : List UInt8) : Option (Nat × List UInt8) :=
  let path := skipelemAt.slashes mem fuel path
  if mem path = 0 then none
  else
    let s := path
    let path := skipelemAt.run mem fuel path
    let len := path - s
    let name := if DIRSIZ ≤ len then ArmXv6.Exec.overwrite name (bytes mem s DIRSIZ) else ArmXv6.Exec.overwrite name
      (bytes mem s len ++ [0])
    some (skipelemAt.slashes mem fuel path, name)

/-- What name holds after each call, when skipelem is called until it returns 0. -/
def elements (mem : Nat → UInt8) (size : Nat) : Nat → Nat → List UInt8 → List (List UInt8)
  | 0, _, _ => []
  | fuel + 1, path, name =>
      match skipelemAt mem size path name with
      | none => []
      | some (path, name) => name :: elements mem size fuel path name

/-- A buffer with a component in it, which a NUL ends if there is room for one. -/
structure Filled (buf name : List UInt8) : Prop where
  length : buf.length = DIRSIZ
  bytes : buf.take name.length = name
  ended : name.length < DIRSIZ → buf[name.length]? = some 0

theorem comps_slash (path : List UInt8) : comps (slash :: path) = comps path := by
  unfold comps
  rw [List.splitOn_cons_eq_if_modifyHead, if_pos (by decide), List.filter_cons_of_neg (by decide)]

theorem comps_dropSlashes (path : List UInt8) : comps (path.dropWhile (· = slash)) = comps path := by
  induction path with
  | nil => rfl
  | cons c rest ih =>
      rw [List.dropWhile_cons]
      split
      · rename_i hc
        rw [ih, decide_eq_true_eq.mp hc, comps_slash]
      · rfl

theorem comps_run {run rest : List UInt8} (hne : run ≠ []) (hrun : ∀ c ∈ run, c ≠ slash) (hrest : rest = [] ∨ ∃ r,
    rest = slash :: r) :
    comps (run ++ rest) = run.take DIRSIZ :: comps rest := by
  have hsingle : run.splitOn slash = [run] := by
    apply List.splitOnP_eq_singleton
    intro c hc
    rw [beq_eq_false_iff_ne]
    exact hrun c hc
  have hkeep : ([run].filter (· ≠ [])) = [run] := List.filter_cons_of_pos (by simpa using hne)
  unfold comps
  rcases hrest with rfl | ⟨r, rfl⟩
  · rw [List.append_nil, hsingle, hkeep]
    rfl
  · have hsplit : (run ++ slash :: r).splitOn slash = run.splitOn slash ++ r.splitOn slash :=
      List.splitOnP_append_cons run r (by decide)
    have hr := comps_slash r
    unfold comps at hr
    rw [hsplit, hsingle, List.filter_append, hkeep, hr]
    rfl

theorem comps_first {path : List UInt8} (hne : path ≠ []) (hhead : path.head? ≠ some slash) :
    comps path = (path.takeWhile (· ≠ slash)).take DIRSIZ :: comps
      ((path.dropWhile (· ≠ slash)).dropWhile (· = slash)) := by
  have hrun : ∀ c ∈ path.takeWhile (· ≠ slash), c ≠ slash := by
    intro c hc
    have := List.mem_takeWhile_imp hc
    simpa using this
  have hsome : path.takeWhile (· ≠ slash) ≠ [] := by
    cases path with
    | nil => exact absurd rfl hne
    | cons c rest =>
        rw [List.head?_cons, ne_eq, Option.some.injEq] at hhead
        rw [List.takeWhile_cons_of_pos (by simpa using hhead)]
        exact List.cons_ne_nil _ _
  have hrest : path.dropWhile (· ≠ slash) = [] ∨ ∃ r, path.dropWhile (· ≠ slash) = slash :: r := by
    cases hd : path.dropWhile (· ≠ slash) with
    | nil => exact .inl rfl
    | cons c r =>
        have hc := List.head?_dropWhile_not (· ≠ slash) path
        rw [hd] at hc
        simp only [List.head?_cons, ne_eq, decide_not, Bool.not_eq_eq_eq_not, Bool.not_false, decide_eq_true_eq] at hc
        exact .inr ⟨r, by rw [hc]⟩
  rw [comps_dropSlashes, ← comps_run hsome hrun hrest, List.takeWhile_append_dropWhile]

theorem head_dropSlashes (path : List UInt8) : (path.dropWhile (· = slash)).head? ≠ some slash := by
  intro h
  have hc := List.head?_dropWhile_not (· = slash) path
  rw [h] at hc
  simp at hc

theorem skipelem_none {path : List UInt8} (h : skipelem path = none) : comps path = [] := by
  unfold skipelem at h
  simp only [ite_eq_left_iff, reduceCtorEq, imp_false, not_not] at h
  rw [← comps_dropSlashes, h]
  rfl

theorem skipelem_some {path rest name : List UInt8} (h : skipelem path = some (rest, name)) :
    comps path = name :: comps rest ∧ (rest = [] ↔ comps rest = []) := by
  unfold skipelem at h
  simp only at h
  split at h
  · cases h
  · rename_i hne
    rw [Option.some.injEq, Prod.mk.injEq] at h
    obtain ⟨rfl, rfl⟩ := h
    refine ⟨?_, fun hnil => ?_, fun hnil => ?_⟩
    · rw [← comps_dropSlashes, comps_first hne (head_dropSlashes path)]
    · rw [hnil]
      rfl
    · by_contra hrest
      rw [comps_first hrest (head_dropSlashes _)] at hnil
      cases hnil

theorem length_elem {path rest name : List UInt8} (h : skipelem path = some (rest, name)) : name.length ≤ DIRSIZ := by
  unfold skipelem at h
  simp only at h
  split at h
  · cases h
  · rw [Option.some.injEq, Prod.mk.injEq] at h
    rw [← h.2, List.length_take]
    omega

section Scanner

variable {mem : Nat → UInt8}

theorem text_slashes {p fuel : Nat} {path : List UInt8} (h : Text mem p path) (hfuel : path.length ≤ fuel) :
    Text mem (skipelemAt.slashes mem fuel p) (path.dropWhile (· = slash)) := by
  induction path generalizing p fuel with
  | nil =>
      cases fuel with
      | zero => exact h
      | succ fuel =>
          have hp : mem p ≠ slash := by
            rw [show mem p = 0 from h]
            decide
          rw [skipelemAt.slashes, if_neg hp]
          exact h
  | cons c rest ih =>
      obtain ⟨hc, hne, hrest⟩ := h
      cases fuel with
      | zero => exact absurd hfuel (Nat.not_succ_le_zero _)
      | succ fuel =>
          rw [skipelemAt.slashes, hc, List.dropWhile_cons]
          by_cases hs : c = slash
          · rw [if_pos hs, if_pos (decide_eq_true hs)]
            exact ih hrest (Nat.le_of_succ_le_succ hfuel)
          · rw [if_neg hs, if_neg (by simpa using hs)]
            exact ⟨hc, hne, hrest⟩

theorem text_run {p fuel : Nat} {path : List UInt8} (h : Text mem p path) (hfuel : path.length ≤ fuel) :
    skipelemAt.run mem fuel p = p + (path.takeWhile (· ≠ slash)).length ∧
      Text mem (skipelemAt.run mem fuel p) (path.dropWhile (· ≠ slash)) := by
  induction path generalizing p fuel with
  | nil =>
      have hp : ¬(mem p ≠ slash ∧ mem p ≠ 0) := fun hn => hn.2 h
      cases fuel with
      | zero => exact ⟨rfl, h⟩
      | succ fuel =>
          rw [skipelemAt.run, if_neg hp]
          exact ⟨rfl, h⟩
  | cons c rest ih =>
      obtain ⟨hc, hne, hrest⟩ := h
      cases fuel with
      | zero => exact absurd hfuel (Nat.not_succ_le_zero _)
      | succ fuel =>
          rw [skipelemAt.run, hc, List.dropWhile_cons, List.takeWhile_cons]
          by_cases hs : c = slash
          · rw [if_neg (fun hn => hn.1 hs), if_neg (by simpa using hs), if_neg (by simpa using hs)]
            exact ⟨rfl, hc, hne, hrest⟩
          · rw [if_pos ⟨hs, hne⟩, if_pos (by simpa using hs), if_pos (by simpa using hs)]
            obtain ⟨hrun, htext⟩ := ih hrest (Nat.le_of_succ_le_succ hfuel)
            refine ⟨?_, htext⟩
            rw [hrun, List.length_cons]
            omega

theorem text_bytes {p n : Nat} {path : List UInt8} (h : Text mem p path) (hn : n ≤ path.length) :
    bytes mem p n = path.take n := by
  induction n generalizing p path with
  | zero => rfl
  | succ n ih =>
      cases path with
      | nil => exact absurd hn (Nat.not_succ_le_zero _)
      | cons c rest =>
          obtain ⟨hc, -, hrest⟩ := h
          rw [List.take_succ_cons, ← ih hrest (Nat.le_of_succ_le_succ hn)]
          unfold bytes
          rw [List.range_succ_eq_map, List.map_cons, List.map_map, Nat.add_zero, hc]
          congr 1
          apply List.map_congr_left
          intro j _
          change mem (p + (j + 1)) = mem (p + 1 + j)
          congr 1
          omega

/-- What skipelem leaves in its buffer for a component. -/
def stored (elem : List UInt8) : List UInt8 := if elem.length < DIRSIZ then elem ++ [0] else elem

theorem skipelemAt_follows {p fuel : Nat} {path : List UInt8} (name : List UInt8) (h : Text mem p path)
    (hfuel : path.length ≤ fuel) :
    match skipelem path with
    | none => skipelemAt mem fuel p name = none
    | some (rest, elem) =>
        ∃ q, skipelemAt mem fuel p name = some (q, ArmXv6.Exec.overwrite name (stored elem)) ∧ Text mem q rest := by
  have htext := text_slashes h hfuel
  have hlen₁ := (List.dropWhile_suffix (· = slash) (l := path)).length_le
  unfold skipelem skipelemAt
  dsimp only
  generalize path.dropWhile (· = slash) = path₁ at htext hlen₁
  generalize skipelemAt.slashes mem fuel p = p₁ at htext
  by_cases hnil : path₁ = []
  · subst hnil
    rw [if_pos rfl]
    exact if_pos htext
  · have hp : mem p₁ ≠ 0 := by
      cases path₁ with
      | nil => exact absurd rfl hnil
      | cons c rest =>
          rw [htext.1]
          exact htext.2.1
    obtain ⟨hrun, hrest⟩ := text_run htext (hlen₁.trans hfuel)
    have hpre : path₁.takeWhile (· ≠ slash) <+: path₁ := List.takeWhile_prefix _
    have hlen : skipelemAt.run mem fuel p₁ - p₁ = (path₁.takeWhile (· ≠ slash)).length := by omega
    have hrest' := text_slashes hrest ((List.dropWhile_suffix (· ≠ slash)).length_le.trans (hlen₁.trans hfuel))
    rw [if_neg hnil]
    refine ⟨_, ?_, hrest'⟩
    rw [if_neg hp, hlen, Option.some.injEq, Prod.mk.injEq]
    refine ⟨rfl, ?_⟩
    have htake : ∀ n ≤ (path₁.takeWhile (· ≠ slash)).length, bytes mem p₁ n = (path₁.takeWhile (· ≠ slash)).take n := by
      intro n hn
      rw [text_bytes htext (hn.trans hpre.length_le)]
      calc path₁.take n = (path₁.takeWhile (· ≠ slash) ++ path₁.dropWhile (· ≠ slash)).take n := by
            rw [List.takeWhile_append_dropWhile]
        _ = (path₁.takeWhile (· ≠ slash)).take n := List.take_append_of_le_length hn
    unfold stored
    by_cases hlong : DIRSIZ ≤ (path₁.takeWhile (· ≠ slash)).length
    · rw [if_pos hlong, htake _ hlong, if_neg (by rw [List.length_take]; omega)]
    · rw [if_neg hlong, htake _ (Nat.le_refl _), List.take_of_length_le (Nat.le_refl _),
        List.take_of_length_le (by omega),
        if_pos (by omega)]

theorem filled_overwrite {name elem : List UInt8} (hname : name.length = DIRSIZ) (helem : elem.length ≤ DIRSIZ) :
    Filled (ArmXv6.Exec.overwrite name (stored elem)) elem := by
  unfold stored ArmXv6.Exec.overwrite
  by_cases hlt : elem.length < DIRSIZ
  · rw [if_pos hlt]
    refine ⟨?_, ?_, fun _ => ?_⟩
    · rw [List.length_append, List.length_drop, List.length_append, List.length_singleton]
      omega
    · rw [List.append_assoc, List.take_left]
    · rw [List.append_assoc, List.getElem?_append_right (Nat.le_refl _), Nat.sub_self]
      rfl
  · rw [if_neg hlt]
    refine ⟨?_, List.take_left, fun h => absurd h hlt⟩
    rw [List.length_append, List.length_drop]
    omega

/-- Called until it returns 0, skipelem puts the components into the buffer one after the
other, and it is called once more than there are components. -/
theorem elements_comps {p size fuel : Nat} {path name : List UInt8} (h : Text mem p path) (hsize : path.length ≤ size)
    (hfuel : path.length < fuel) (hname : name.length = DIRSIZ) :
      List.Forall₂ Filled (elements mem size fuel p name) (comps path) := by
  induction fuel generalizing p path name with
  | zero => omega
  | succ fuel ih =>
      have hfollow := skipelemAt_follows name h hsize
      unfold elements
      cases hskip : skipelem path with
      | none =>
          rw [hskip] at hfollow
          rw [show skipelemAt mem size p name = none from hfollow, skipelem_none hskip]
          exact .nil
      | some r =>
          obtain ⟨rest, elem⟩ := r
          rw [hskip] at hfollow
          obtain ⟨q, hq, htext⟩ := hfollow
          have hlen := length_skipelem hskip
          have helem : elem.length ≤ DIRSIZ := length_elem hskip
          have hfill := filled_overwrite hname helem
          rw [hq, (skipelem_some hskip).1]
          exact .cons hfill (ih htext (by omega) (by omega) hfill.length)

end Scanner

theorem parentOf_cons (T : Names) (i : Nat) (name : List UInt8) {rest : List (List UInt8)} (hne : rest ≠ []) :
    parentOf T i (name :: rest) =
      if (T i).type ≠ T_DIR then none
      else match lookup (T i).entries name with
        | none => none
        | some de => parentOf T de.inum rest := by
  obtain ⟨last, hlast⟩ : ∃ last, rest.getLast? = some last := Option.isSome_iff_exists.mp (List.getLast?_isSome.mpr hne)
  have hlast' : (name :: rest).getLast? = some last := by
    rw [List.getLast?_cons_of_ne_nil hne]
    exact hlast
  unfold parentOf
  rw [hlast', hlast, List.dropLast_cons_of_ne_nil hne]
  dsimp only [walk]
  split
  · rfl
  · cases lookup (T i).entries name with
    | none => rfl
    | some de => rfl

theorem resolve_loop_walk (T : Names) (fuel i : Nat) (path name : List UInt8) (hfuel : path.length < fuel) :
    (resolve.loop T false fuel i path name).map Prod.fst = walk T i (comps path) := by
  induction fuel generalizing i path name with
  | zero => omega
  | succ fuel ih =>
      unfold resolve.loop
      cases hskip : skipelem path with
      | none =>
          rw [skipelem_none hskip]
          rfl
      | some r =>
          obtain ⟨rest, elem⟩ := r
          have hlen := length_skipelem hskip
          rw [(skipelem_some hskip).1]
          dsimp only [walk]
          split
          · rfl
          · rw [if_neg (fun h => Bool.false_ne_true h.1)]
            cases lookup (T i).entries elem with
            | none => rfl
            | some de => exact ih de.inum rest elem (by omega)

theorem resolve_loop_parent (T : Names) (fuel i : Nat) (path name : List UInt8) (hfuel : path.length < fuel) :
    resolve.loop T true fuel i path name = parentOf T i (comps path) := by
  induction fuel generalizing i path name with
  | zero => omega
  | succ fuel ih =>
      unfold resolve.loop
      cases hskip : skipelem path with
      | none =>
          rw [skipelem_none hskip]
          rfl
      | some r =>
          obtain ⟨rest, elem⟩ := r
          have hlen := length_skipelem hskip
          obtain ⟨hcomps, hnil⟩ := skipelem_some hskip
          rw [hcomps]
          by_cases hlast : rest = []
          · rw [hnil.mp hlast]
            dsimp only [parentOf, walk, List.getLast?_singleton, List.dropLast]
            by_cases hdir : (T i).type = T_DIR
            · rw [if_neg (not_not.mpr hdir), if_pos ⟨rfl, hlast⟩]
              exact (if_pos hdir).symm
            · rw [if_pos hdir]
              exact (if_neg hdir).symm
          · rw [parentOf_cons T i elem fun h => hlast (hnil.mpr h)]
            dsimp only
            split
            · rfl
            · rw [if_neg (fun h => hlast h.2)]
              cases lookup (T i).entries elem with
              | none => rfl
              | some de => exact ih de.inum rest elem (by omega)

variable {v : Volume} {A : Image} {fs fs₀ : Fs} {ip cwd : Nat} {G : Event → Prop}

/-- Nobody holds an inode. -/
def Unlocked (fs : Fs) : Prop := ∀ ip, 0 < (fs.icache ip).ref → (fs.icache ip).busy = false

/-- iget finds no entry, in a cache that had one free entry at most when the walk began. -/
def Crowded (fs : Fs) (w : Stop) : Prop :=
  w = .panic "iget: no inodes" ∧ ∀ a < NINODE, ∀ b < NINODE, a ≠ b → (fs.icache a).ref ≠ 0 ∨ (fs.icache b).ref ≠ 0

theorem crowded_of_exhausted {w : Stop} (hr : Refs fs₀ fs [ip]) (h : Exhausted fs w) : Crowded fs₀ w := by
  refine ⟨h.1, fun a ha b hb hne => ?_⟩
  have hcount : ∀ c, c ≠ ip → [ip].count c = 0 := fun c hc => List.count_eq_zero_of_not_mem (by simpa using hc)
  by_cases hip : a = ip
  · have := hr.ref b hb
    have := h.2 b hb
    have := hcount b (by omega)
    omega
  · have := hr.ref a ha
    have := h.2 a ha
    have := hcount a hip
    omega

theorem lenient_true : Lenient fun _ => True := fun _ _ => trivial

theorem iunlockput_returns {L : List Nat} (h : Sound v A fs) (ha : Anchored v A fs₀) (hr : Refs fs₀ fs (ip :: L))
    (hip : ip < NINODE)
    (hbusy : (fs.icache ip).busy = true) :
    (iunlockput ip fs).Holds G
      (fun _ fs' => Sound v A fs' ∧ Refs fs₀ fs' L ∧
        fs' = putInode fs ip { fs.icache ip with busy := false, ref := (fs.icache ip).ref - 1 })
          (fun _ _ => False) := by
  unfold iunlockput
  rw [holds_bind]
  refine ((iunlock_returns (hr.pos hip) hbusy).and (iunlock_spec h lenient_true hip)).mono ?_ fun _ _ hf => hf.1
  rintro _ fs₁ ⟨-, -, hs, hr', rfl⟩
  refine (iput_walk hs ha (hr.trans hr') hip).mono ?_ fun _ _ h => h
  rintro _ fs₂ ⟨hs', hr'', rfl⟩
  exact ⟨hs', hr'', by simp⟩

/-- The entries in use that are locked now were so before. -/
def NoNewLock (fs fs' : Fs) : Prop :=
  ∀ jp, 0 < (fs'.icache jp).ref → (fs'.icache jp).busy = true → 0 < (fs.icache jp).ref ∧ (fs.icache jp).busy = true

theorem iget_noNewLock (dev inum : Nat) (fs : Fs) :
    (iget dev inum fs).Holds G (fun _ fs' => NoNewLock fs fs') fun _ _ => True := by
  simp only [iget, holds_bind, holds_fetch]
  cases hfind : (List.range NINODE).find? fun j => 0 < (fs.icache j).ref ∧ (fs.icache j).dev = dev ∧
    (fs.icache j).inum = inum with
  | some ip =>
      have href := List.find?_some hfind
      simp only [decide_eq_true_eq] at href
      simp only [holds_bind, holds_setInode, holds_pure]
      intro jp hjp hb
      by_cases hj : jp = ip
      · subst hj
        rw [putInode_self] at hb
        exact ⟨href.1, hb⟩
      · rw [putInode_of_ne hj] at hjp hb
        exact ⟨hjp, hb⟩
  | none =>
      cases (List.range NINODE).find? fun j => (fs.icache j).ref = 0 with
      | some ip =>
          simp only [holds_bind, holds_setInode, holds_pure]
          intro jp hjp hb
          by_cases hj : jp = ip
          · subst hj
            rw [putInode_self] at hb
            cases hb
          · rw [putInode_of_ne hj] at hjp hb
            exact ⟨hjp, hb⟩
      | none =>
          rw [holds_panic]
          trivial

theorem dirlookup_noNewLock {dp i : Nat} {name : List UInt8} (h : Sound v A fs) (hq : Quiet fs)
    (hc : Cached v A fs dp i)
    (hdir : (A.ino i).type = T_DIR) (hmod : (A.ino i).size % DESIZE = 0) :
    (dirlookup dp name fs).Holds G (fun _ fs' => NoNewLock fs fs') fun _ _ => True :=
  dirlookup_search h hmod (.inr hq) hc hdir (fun _ _ h₁ h₂ => ⟨h₁, h₂⟩) fun _ de _ _ _ =>
    iget_noNewLock ROOTDEV de.inum fs

/-- The walk comes to its end, unless the cache is full. -/
theorem namex_loop_returns (ht : Tidy v A) (ha : Anchored v A fs₀) (hd : NoDangling v A) (parent : Bool) (fuel : Nat)
    (path name : List UInt8) (h : Sound v A fs) (hq : Quiet fs) (hu : Unlocked fs) (hr : Refs fs₀ fs [ip])
      (hip : ip < NINODE)
    (hlive : Live v A (fs.icache ip).inum) :
    (namex.loop parent fuel ip path name fs).Holds G (fun _ _ => True) fun w _ => Crowded fs₀ w := by
  induction fuel generalizing fs ip path name with
  | zero =>
      rw [namex.loop, holds_pure]
      trivial
  | succ fuel ih =>
      have hin := (h.rep.cache.known ip hip (hr.pos hip)).2
      unfold namex.loop
      cases hskip : skipelem path with
      | none =>
          cases parent with
          | true =>
              simp only [if_true, holds_bind]
              refine (iput_walk h ha hr hip).mono (fun _ fs' _ => ?_) fun _ _ h => h
              rw [holds_pure]
              trivial
          | false => exact (holds_pure _ _).2 trivial
      | some r =>
          obtain ⟨path', name'⟩ := r
          simp only [holds_bind, holds_fetch]
          refine ((ilock_returns h hq hip (hr.pos hip) (hu ip (hr.pos hip)) hlive).and
            (ilock_spec h lenient_true hip (.inr hlive))).mono ?_ fun _ _ hf => hf.1.elim
          rintro _ fs₁ ⟨-, -, hc, hs, hr₁, x, rfl, hx⟩
          have hr₁ := hr.trans hr₁
          have hq₁ : Quiet (putInode fs ip x) := hq
          have hbusy₁ : ((putInode fs ip x).icache ip).busy = true := by
            rw [putInode_self]
            exact hx
          simp only [holds_ite, holds_bind, hc.din hs.rep]
          refine ⟨fun _ => ?_, fun hdir => ⟨fun _ => ?_, fun _ => ?_⟩⟩
          · refine (iunlockput_returns hs ha hr₁ hip hbusy₁).mono (fun _ _ _ => ?_) fun _ _ hf => hf.elim
            rw [holds_pure]
            trivial
          · refine (iunlock_returns (hr₁.pos hip) hbusy₁).mono (fun _ _ _ => ?_) fun _ _ hf => hf.elim
            rw [holds_pure]
            trivial
          · have hdir := not_not.1 hdir
            have hmod := (ht _ hc.live hdir).1
            refine (((dirlookup_binding hs hq₁ hc hdir hmod).and (dirlookup_spec hs ht lenient_true hc hdir)).and
              (dirlookup_noNewLock hs hq₁ hc hdir hmod)).mono ?_ fun w _ hw => crowded_of_exhausted hr₁ hw.1.1
            rintro (_ | ⟨next, off⟩) fs₂ ⟨⟨hbind, hfound⟩, hlock⟩
            · obtain ⟨rfl, -⟩ := hfound
              rw [holds_bind]
              refine (iunlockput_returns hs ha hr₁ hip hbusy₁).mono (fun _ _ _ => ?_) fun _ _ hf => hf.elim
              rw [holds_pure]
              trivial
            · obtain ⟨k, de, -, hget, hm, -, hnext, hinum, hs₂, hr₂, y, hfs₂, hagain⟩ := hfound
              have hr₂' : Refs fs₀ fs₂ [ip, next] := (hr₁.trans hr₂).perm (List.Perm.swap _ _ _)
              have hbusy₂ : (fs₂.icache ip).busy = true := by
                rw [hfs₂]
                by_cases hn : ip = next
                · subst hn
                  rw [putInode_self, hagain (hr₁.pos hip)]
                  exact hbusy₁
                · rw [putInode_of_ne hn]
                  exact hbusy₁
              have hq₂ : Quiet fs₂ := by
                rw [hfs₂]
                exact hq
              rw [holds_bind]
              refine (iunlockput_returns hs₂ ha hr₂' hip hbusy₂).mono ?_ fun _ _ hf => hf.elim
              rintro _ fs₃ ⟨hs₃, hr₃, hfs₃⟩
              have hinum₃ : (fs₃.icache next).inum = de.inum := by
                rw [← hinum, hfs₃]
                by_cases hn : next = ip
                · rw [hn, putInode_self]
                · rw [putInode_of_ne hn]
              have hlive₃ : Live v A (fs₃.icache next).inum := by
                rw [hinum₃]
                exact hd _ hc.live hdir de (List.mem_of_getElem? hget) hm.1
              have hq₃ : Quiet fs₃ := by
                rw [hfs₃]
                exact hq₂
              refine ih path' name' hs₃ hq₃ (fun jp hjp => ?_) hr₃ hnext hlive₃
              -- only the directory was locked, and it is not any more
              by_cases hj : jp = ip
              · rw [hj, hfs₃, putInode_self]
              · rw [hfs₃, putInode_of_ne hj] at hjp ⊢
                rw [← Bool.not_eq_true]
                intro hb
                obtain ⟨hpos, hb₁⟩ := hlock jp hjp hb
                rw [putInode_of_ne hj] at hpos hb₁
                rw [hu jp hpos] at hb₁
                cases hb₁

/-- A file system between two calls, without dangling entries, and a process in directory cwd
of it. -/
structure Settled (v : Volume) (A : Image) (fs : Fs) (cwd : Nat) : Prop where
  sound : Sound v A fs
  tidy : Tidy v A
  anchored : Anchored v A fs
  entries : NoDangling v A
  quiet : Quiet fs
  unlocked : Unlocked fs
  index : cwd < NINODE
  ref : 0 < (fs.icache cwd).ref
  live : Live v A (fs.icache cwd).inum
  root : Live v A ROOTINO

theorem namex_returns (hs : Settled v A fs cwd) (parent : Bool) (path : List UInt8) :
    (namex cwd path parent fs).Holds G (fun _ _ => True) fun w _ => Crowded fs w := by
  unfold namex
  simp only [holds_bind, holds_ite]
  refine ⟨fun _ => ?_, fun _ => ?_⟩
  · refine (((iget_got ROOTINO fs).and (iget_spec hs.sound lenient_true v.root)).and
      (iget_noNewLock ROOTDEV ROOTINO fs)).mono ?_ ?_
    · rintro ip fs₁ ⟨⟨-, hip, hinum, hs₁, hr, x, hfs₁, -⟩, hlock⟩
      have hq : Quiet fs₁ := by
        rw [hfs₁]
        exact hs.quiet
      refine namex_loop_returns hs.tidy hs.anchored hs.entries parent _ path [] hs₁ hq (fun jp hjp => ?_) hr hip ?_
      · rw [← Bool.not_eq_true]
        intro hb
        obtain ⟨hpos, hb⟩ := hlock jp hjp hb
        rw [hs.unlocked jp hpos] at hb
        cases hb
      · rw [hinum]
        exact hs.root
    · rintro w _ ⟨⟨hw, -⟩, -⟩
      exact ⟨hw.1, fun a ha _ _ _ => .inl (hw.2 a ha)⟩
  · refine (idup_spec hs.sound hs.index hs.ref).mono ?_ fun _ _ h => h
    rintro ip fs₁ ⟨rfl, hs₁, hr, hfs₁⟩
    have hq : Quiet fs₁ := by
      rw [hfs₁]
      exact hs.quiet
    refine namex_loop_returns hs.tidy hs.anchored hs.entries parent _ path [] hs₁ hq (fun jp hjp => ?_) hr hs.index ?_
    · rw [hfs₁] at hjp ⊢
      by_cases hj : jp = ip
      · rw [hj, putInode_self]
        exact hs.unlocked ip hs.ref
      · rw [putInode_of_ne hj] at hjp ⊢
        exact hs.unlocked jp hjp
    · rw [hfs₁, putInode_self]
      exact hs.live

theorem namex_resolves (hs : Settled v A fs cwd) (parent : Bool) (path : List UInt8) :
    (namex cwd path parent fs).Holds G
      (Walked v A (· ≠ noType) fs parent (resolve (view v A) (fs.icache cwd).inum path parent)) fun w _ =>
        Crowded fs w := by
  have hok : Lenient (· ≠ noType) := by
    intro w hw hn
    subst hn
    exact hw (by decide)
  refine ((namex_returns hs parent path).and
    (namex_spec hs.tidy hs.anchored hok (.inr hs.entries) parent path hs.sound hs.index hs.ref
    (.inr ⟨hs.live, hs.root⟩))).mono (fun _ _ h => h.2) fun _ _ h => h.1

/-- What namei gives for the components of a path: a reference to the inode they lead to. -/
def Reached (v : Volume) (A : Image) (fs : Fs) (e : Option Nat) : Option Nat → Fs → Prop
  | none, fs' => Sound v A fs' ∧ Refs fs fs' [] ∧ e = none
  | some ip, fs' => Sound v A fs' ∧ Refs fs fs' [ip] ∧ ip < NINODE ∧ e = some (fs'.icache ip).inum

/-- What nameiparent gives: a reference to a directory, and the last component. -/
def ReachedParent (v : Volume) (A : Image) (fs : Fs) (e : Option (Nat × List UInt8)) :
    Option (Nat × List UInt8) → Fs → Prop
  | none, fs' => Sound v A fs' ∧ Refs fs fs' [] ∧ e = none
  | some (ip, name), fs' => Sound v A fs' ∧ Refs fs fs' [ip] ∧ ip < NINODE ∧ e = some ((fs'.icache ip).inum, name)

/-- Paths are resolved component by component. The scanner puts the components into its buffer
in their order and then ends; namei and nameiparent follow them through the directories. Only
a cache with fewer than two free entries can stop them. -/
theorem paths_resolve_by_components (hs : Settled v A fs cwd) (path : List UInt8) :
    (∀ mem p size fuel name, Text mem p path → path.length ≤ size → path.length < fuel → name.length = DIRSIZ →
      List.Forall₂ Filled (elements mem size fuel p name) (comps path)) ∧
    (namei cwd path fs).Holds (fun _ => True)
      (Reached v A fs (walk (view v A) (start (fs.icache cwd).inum path) (comps path))) (fun w _ => Crowded fs w) ∧
    (nameiparent cwd path fs).Holds (fun _ => True)
      (ReachedParent v A fs (parentOf (view v A) (start (fs.icache cwd).inum path) (comps path))) fun w _ =>
        Crowded fs w := by
  refine ⟨fun mem p size fuel name h hsize hfuel hname => elements_comps h hsize hfuel hname, ?_, ?_⟩
  · have hwalk := resolve_loop_walk (view v A) (path.length + 1) (start (fs.icache cwd).inum path) path []
      (Nat.lt_succ_self _)
    unfold namei
    rw [holds_bind]
    refine (namex_resolves hs false path).mono (fun r fs' hw => ?_) fun _ _ h => h
    rw [← hwalk]
    cases r with
    | none =>
        obtain ⟨hsound, hrefs, -, he⟩ := hw
        exact (holds_pure _ _).2 ⟨hsound, hrefs, congrArg (Option.map Prod.fst) he⟩
    | some y =>
        obtain ⟨hsound, hrefs, -, he, hip, -⟩ := hw
        exact (holds_pure _ _).2 ⟨hsound, hrefs, hip, congrArg (Option.map Prod.fst) he⟩
  · have hparent := resolve_loop_parent (view v A) (path.length + 1) (start (fs.icache cwd).inum path) path []
      (Nat.lt_succ_self _)
    unfold nameiparent
    refine (namex_resolves hs true path).mono (fun r fs' hw => ?_) fun _ _ h => h
    rw [← hparent]
    cases r with
    | none =>
        obtain ⟨hsound, hrefs, -, he⟩ := hw
        exact ⟨hsound, hrefs, he⟩
    | some y =>
        obtain ⟨hsound, hrefs, -, he, hip, -⟩ := hw
        exact ⟨hsound, hrefs, hip, he⟩

/-- A volume of forty blocks, with sixty-four inodes and a log of ten blocks. -/
def crowdedVolume : Volume where
  sb := ⟨40, 18, 64, 10⟩
  disksize := 40
  fits := le_rfl
  small := smallVolume.small
  log := by decide
  order := by decide
  inodes := by decide
  root := by decide

/-- The root, forty-nine files that are open but have been unlinked, and one file in the root. -/
def crowdedDinode (i : Nat) : Dinode :=
  if i = 1 then ⟨T_DIR, 0, 0, 1, 3 * DESIZE, fun j => if j = 0 then 12 else 0⟩
  else if 2 ≤ i ∧ i ≤ 50 then ⟨T_FILE, 0, 0, 0, 0, fun _ => 0⟩
  else if i = 51 then ⟨T_FILE, 0, 0, 1, 0, fun _ => 0⟩
  else emptyDinode

def crowdedEntries : List Dirent := dots ROOTINO ROOTINO ++ [⟨51, strncpy [97] DIRSIZ⟩]

def inodeBlock (d : Nat → Dinode) : Nat → Block
  | 0 => Mem.zero
  | n + 1 => setDinode (inodeBlock d n) n (d n)

def crowdedBlocks : Nat → Block := fun b =>
  if b = 1 then Mem.zero.setSlice 0 (leBytes 4 40 ++ leBytes 4 18 ++ leBytes 4 64 ++ leBytes 4 10)
  else if 2 ≤ b ∧ b < 10 then inodeBlock (fun k => crowdedDinode (8 * (b - 2) + k)) IPB
  else if b = 11 then Mem.zero.setSlice 0 [255, 31]
  else if b = 12 then Mem.zero.setSlice 0 (crowdedEntries.flatMap encodeDirent)
  else Mem.zero

def crowdedImage : Image where
  ino i := dinodeAt (crowdedBlocks (IBLOCK i)) (i % IPB)
  used b := (crowdedBlocks (BBLOCK b 64)).bit (b % BPB)
  data := crowdedBlocks

/-- Every entry of the inode cache is in use: for the root, and for the open files. -/
def crowdedFs : Fs where
  blk := crowdedBlocks
  disksize := 40
  held := []
  dirty := []
  log := ⟨30, 10, false, []⟩
  icache ip :=
    if ip < 50 then ⟨ROOTDEV, ip + 1, 1, false, true, crowdedImage.ino (ip + 1)⟩ else ⟨0, 0, 0, false, false,
    emptyDinode⟩
  input := []

theorem dinodeAt_inodeBlock (d : Nat → Dinode) (hd : ∀ k, DinodeOk (d k)) {n k : Nat} (hn : n ≤ IPB) (hk : k < n) :
    dinodeAt (inodeBlock d n) k = d k := by
  induction n with
  | zero => omega
  | succ n ih =>
      rw [inodeBlock]
      by_cases he : k = n
      · rw [he]
        exact dinodeAt_setDinode_self _ n (by omega) _ (hd n)
      · rw [dinodeAt_setDinode_of_ne _ _ _ he]
        exact ih (by omega) (by omega)

theorem crowdedDinode_ok (i : Nat) : DinodeOk (crowdedDinode i) := by
  unfold crowdedDinode
  split
  · refine ⟨by decide, by decide, by decide, by decide, by decide, fun j => ?_, fun j hj => ?_⟩
    · dsimp only
      split <;> decide
    · exact if_neg (by omega)
  · split
    · exact ⟨by decide, by decide, by decide, by decide, by decide, fun _ => Nat.two_pow_pos 32, fun _ _ => rfl⟩
    · split
      · exact ⟨by decide, by decide, by decide, by decide, by decide, fun _ => Nat.two_pow_pos 32, fun _ _ => rfl⟩
      · exact ⟨by decide, by decide, by decide, by decide, by decide, fun _ => Nat.two_pow_pos 32, fun _ _ => rfl⟩

theorem ino_crowded {i : Nat} (hi : i < 64) : crowdedImage.ino i = crowdedDinode i := by
  have hipb : IPB = 8 := rfl
  have hblock : IBLOCK i = i / 8 + 2 := rfl
  have hb : crowdedBlocks (IBLOCK i) = inodeBlock (fun k => crowdedDinode (8 * (IBLOCK i - 2) + k)) IPB := by
    unfold crowdedBlocks
    rw [if_neg (by omega), if_pos (by omega)]
  have hat := dinodeAt_inodeBlock (fun k => crowdedDinode (8 * (IBLOCK i - 2) + k)) (fun k => crowdedDinode_ok _)
    (Nat.le_refl IPB)
    (Nat.mod_lt i (by decide : 0 < IPB))
  change dinodeAt (crowdedBlocks (IBLOCK i)) (i % IPB) = _
  rw [hb, hat]
  have hsum : 8 * (IBLOCK i - 2) + i % IPB = i := by
    rw [hipb]
    omega
  rw [hsum]

theorem live_crowded (i : Nat) : Live crowdedVolume crowdedImage i ↔ 1 ≤ i ∧ i ≤ 51 := by
  have htype : ∀ i, (crowdedDinode i).type ≠ 0 ↔ 1 ≤ i ∧ i ≤ 51 := by
    intro i
    unfold crowdedDinode
    by_cases h1 : i = 1
    · subst h1
      decide
    · by_cases h2 : 2 ≤ i ∧ i ≤ 50
      · rw [if_neg h1, if_pos h2]
        exact iff_of_true (by decide) (by omega)
      · by_cases h3 : i = 51
        · subst h3
          decide
        · rw [if_neg h1, if_neg h2, if_neg h3]
          exact iff_of_false (by decide) (by omega)
  constructor
  · rintro ⟨hi, ht⟩
    rw [ino_crowded hi] at ht
    exact (htype i).mp ht
  · intro h
    have hi : i < 64 := by omega
    refine ⟨hi, ?_⟩
    rw [ino_crowded hi]
    exact (htype i).mpr h

theorem addrs_crowded (i k : Nat) : (crowdedDinode i).addrs k = if i = 1 ∧ k = 0 then 12 else 0 := by
  unfold crowdedDinode
  by_cases h1 : i = 1
  · subst h1
    rw [if_pos rfl]
    simp
  · have hno : ¬(i = 1 ∧ k = 0) := fun h => h1 h.1
    rw [if_neg h1, if_neg hno]
    split
    · rfl
    · split <;> rfl

theorem slot_crowded {i : Nat} (hi : i < 64) (k : Nat) : slot crowdedImage i k = if i = 1 ∧ k = 0 then 12 else 0 := by
  unfold slot
  by_cases hk : k ≤ NDIRECT
  · rw [if_pos hk, ino_crowded hi, addrs_crowded]
  · have hz : (crowdedImage.ino i).addrs NDIRECT = 0 := by
      rw [ino_crowded hi, addrs_crowded, if_neg (fun h => absurd h.2 (by decide))]
    rw [if_neg hk, if_pos (.inl hz), if_neg (by omega)]

theorem owns_crowded : Owns crowdedVolume crowdedImage ∅ ∅ where
  din i _ := dinodeAt_ok _ _
  range i k hl _ hk := by
    rw [slot_crowded hl.1] at hk ⊢
    split at hk
    case isTrue h0 =>
      rw [if_pos h0]
      decide
    case isFalse => exact absurd rfl hk
  inj i j k l hi _ hj _ hk he := by
    rw [slot_crowded hi.1] at hk he
    rw [slot_crowded hj.1] at he
    split at hk
    case isTrue h0 =>
      rw [if_pos h0] at he
      split at he
      case isTrue h1 => omega
      case isFalse => omega
    case isFalse => exact absurd rfl hk
  loose b hb := absurd hb (Set.notMem_empty b)
  used b hb := by
    have h : ∀ b < 40, crowdedImage.used b = true ↔ b < 13 := by decide +kernel
    rw [h b hb]
    constructor
    · intro hlt
      rcases Nat.lt_or_ge b 12 with h12 | h12
      · exact .inl h12
      · refine .inr (.inr ⟨1, 0, (live_crowded 1).mpr (by decide), Set.notMem_empty _, ?_⟩)
        rw [slot_crowded (by decide), if_pos ⟨rfl, rfl⟩]
        omega
    · rintro (h12 | hb | ⟨i, k, hl, -, he⟩)
      · exact Nat.lt_succ_of_lt h12
      · exact absurd hb (Set.notMem_empty b)
      · rw [slot_crowded hl.1] at he
        split at he <;> omega

theorem size_crowded (i : Nat) : (crowdedDinode i).size = if i = 1 then 48 else 0 := by
  unfold crowdedDinode
  split
  · rfl
  · split
    · rfl
    · split <;> rfl

theorem full_crowded {i : Nat} (hi : i < 64) : Full crowdedImage i := by
  have hs : (crowdedImage.ino i).size = if i = 1 then 48 else 0 := by rw [ino_crowded hi, size_crowded]
  refine ⟨?_, fun n _ => ?_, ?_⟩
  · rw [hs]
    split <;> decide
  · rw [slot_crowded hi, hs]
    have h0 : bslot n = 0 ↔ n = 0 := by
      unfold bslot
      by_cases hn : n < NDIRECT
      · rw [if_pos hn]
      · have h12 : NDIRECT = 12 := rfl
        rw [if_neg hn]
        omega
    simp only [h0]
    by_cases h1 : i = 1
    · rw [if_pos h1]
      change _ ↔ n < 1
      split <;> omega
    · rw [if_neg h1, if_neg (fun h => h1 h.1)]
      change _ ↔ n < 0
      omega
  · rw [slot_crowded hi, hs, if_neg (fun h => absurd h.2 (by decide))]
    split <;> decide

theorem entries_crowded : entries crowdedImage ROOTINO = crowdedEntries := by decide +kernel

theorem icache_crowded {ip : Nat} (h : 0 < (crowdedFs.icache ip).ref) : ip < 50 ∧
    crowdedFs.icache ip = ⟨ROOTDEV, ip + 1, 1, false, true, crowdedImage.ino (ip + 1)⟩ := by
  by_cases hip : ip < 50
  · exact ⟨hip, if_pos hip⟩
  · have hno : crowdedFs.icache ip = ⟨0, 0, 0, false, false, emptyDinode⟩ := if_neg hip
    rw [hno] at h
    cases h

theorem sound_crowded : Sound crowdedVolume crowdedImage crowdedFs where
  rep := by
    refine ⟨⟨rfl, rfl, rfl, by decide, by simp [crowdedFs], by decide, by simp [crowdedFs], .refl _⟩,
      ⟨?_, ?_, ?_, ?_⟩, ⟨?_, ?_, ?_⟩⟩
    · decide +kernel
    · exact fun _ _ _ => rfl
    · exact fun _ _ => rfl
    · exact fun _ _ _ => rfl
    · intro ip _ hr
      obtain ⟨hip, he⟩ := icache_crowded hr
      rw [he]
      exact ⟨rfl, show ip + 1 < 64 by omega⟩
    · intro ip _ jp _ hr hr' heq
      obtain ⟨-, he⟩ := icache_crowded hr
      obtain ⟨-, he'⟩ := icache_crowded hr'
      rw [he, he'] at heq
      exact Nat.succ.inj heq
    · intro ip _ hr _
      obtain ⟨-, he⟩ := icache_crowded hr
      rw [he]
  owns := owns_crowded
  full i hl := full_crowded hl.1
  live ip _ hr _ := by
    obtain ⟨hip, he⟩ := icache_crowded hr
    rw [he]
    exact (live_crowded _).mpr (by dsimp only; omega)

theorem dir_crowded {i : Nat} (hi : i < 64) (ht : (crowdedImage.ino i).type = T_DIR) : i = ROOTINO := by
  rw [ino_crowded hi] at ht
  unfold crowdedDinode at ht
  by_cases h1 : i = 1
  · exact h1
  · rw [if_neg h1] at ht
    split at ht
    · cases ht
    · split at ht <;> cases ht

theorem settled_crowded : Settled crowdedVolume crowdedImage crowdedFs 0 where
  sound := sound_crowded
  tidy i hl ht := by
    obtain rfl := dir_crowded hl.1 ht
    rw [entries_crowded, ino_crowded (by decide)]
    refine ⟨by decide, ?_⟩
    decide +kernel
  anchored i hl hn := by
    rw [ino_crowded hl.1] at hn
    have hrange := (live_crowded i).mp hl
    have h51 : i ≠ 51 := by
      rintro rfl
      cases hn
    refine ⟨i - 1, by change i - 1 < 50; omega, ?_⟩
    have he : crowdedFs.icache (i - 1) = ⟨ROOTDEV, i - 1 + 1, 1, false, true, crowdedImage.ino (i - 1 + 1)⟩ :=
      if_pos (by omega)
    rw [he]
    exact ⟨Nat.one_pos, rfl, show i - 1 + 1 = i by omega⟩
  entries i hl ht := by
    obtain rfl := dir_crowded hl.1 ht
    have hrange : ∀ de ∈ crowdedEntries, 1 ≤ de.inum ∧ de.inum ≤ 51 := by decide +kernel
    rw [entries_crowded]
    exact fun de hde _ => (live_crowded de.inum).mpr (hrange de hde)
  quiet := ⟨rfl, by decide⟩
  unlocked ip hr := by
    rw [(icache_crowded hr).2]
  index := by decide
  ref := by decide
  live := (live_crowded _).mpr (by decide)
  root := (live_crowded _).mpr (by decide)

theorem view_crowded : view crowdedVolume crowdedImage ROOTINO = ⟨T_DIR, 1, crowdedEntries⟩ := by
  unfold view
  have hdir : (crowdedDinode ROOTINO).type = T_DIR := rfl
  rw [if_pos (by decide), ino_crowded (by decide), if_pos hdir, entries_crowded]
  rfl

/-- The path /./.. leads through two directories, both of which are the root. -/
theorem paths_resolve_by_components_root : comps [slash, 46, slash, 46, 46] = [[46], [46, 46]] ∧
    walk (view crowdedVolume crowdedImage) ROOTINO [[46], [46, 46]] = some ROOTINO ∧
    (namei 0 [slash, 46, slash, 46, 46] crowdedFs).returns = true ∧
    (namei 0 [slash, 46, slash, 46, 46] crowdedFs).Holds (fun _ => True)
      (Reached crowdedVolume crowdedImage crowdedFs
        (walk (view crowdedVolume crowdedImage) (start (crowdedFs.icache 0).inum [slash, 46, slash, 46, 46])
          (comps [slash, 46, slash, 46, 46])))
      (fun w _ => Crowded crowdedFs w) := by
  refine ⟨by decide, ?_, by decide +kernel,
    (paths_resolve_by_components settled_crowded [slash, 46, slash, 46, 46]).2.1⟩
  have h₁ : lookup crowdedEntries [46] = some ⟨ROOTINO, strncpy [46] DIRSIZ⟩ := by decide +kernel
  have h₂ : lookup crowdedEntries [46, 46] = some ⟨ROOTINO, strncpy [46, 46] DIRSIZ⟩ := by decide +kernel
  unfold walk
  rw [view_crowded, if_neg (by decide), h₁]
  dsimp only
  unfold walk
  rw [view_crowded, if_neg (by decide), h₂]
  rfl

/-- The path a leads to inode 51, but there is no entry left in the cache for it. -/
theorem full_cache_stops_walk : Settled crowdedVolume crowdedImage crowdedFs 0 ∧
    walk (view crowdedVolume crowdedImage) (start (crowdedFs.icache 0).inum [97]) (comps [97]) = some 51 ∧
    (namei 0 [97] crowdedFs).returns = false := by
  have hstart : start (crowdedFs.icache 0).inum [97] = ROOTINO := rfl
  have hcomps : comps [97] = [[97]] := by decide
  refine ⟨settled_crowded, ?_, by decide +kernel⟩
  rw [hstart, hcomps]
  unfold walk
  rw [view_crowded, if_neg (by decide)]
  have hlook : lookup crowdedEntries [97] = some ⟨51, strncpy [97] DIRSIZ⟩ := by decide +kernel
  rw [hlook]
  rfl

theorem cached_crowded : Cached crowdedVolume crowdedImage crowdedFs 0 ROOTINO :=
  ⟨by decide, by decide, rfl, rfl, (live_crowded _).mpr (by decide)⟩

theorem distinct_crowded : Distinct crowdedEntries := by
  have h : ∀ j < 3, ∀ k < 3, ∀ d ∈ crowdedEntries[j]?, ∀ e ∈ crowdedEntries[k]?, key d.name = key e.name → j = k := by
    decide +kernel
  intro j k d e hj hk _ _ hkey
  exact h j (List.getElem?_eq_some_iff.1 hj).1 k (List.getElem?_eq_some_iff.1 hk).1 d hj e hk hkey

/-- The root binds the name a, but with the cache full its lookup ends in a panic. -/
theorem full_cache_stops_lookup : Sound crowdedVolume crowdedImage crowdedFs ∧ Quiet crowdedFs ∧
    Cached crowdedVolume crowdedImage crowdedFs 0 ROOTINO ∧ (crowdedImage.ino ROOTINO).type = T_DIR ∧
    (crowdedImage.ino ROOTINO).size % DESIZE = 0 ∧ Distinct (entries crowdedImage ROOTINO) ∧
    binding (entries crowdedImage ROOTINO) [97] = some 51 ∧
    ∃ fs' t, dirlookup 0 [97] crowdedFs = .stop (.panic "iget: no inodes") fs' t := by
  have hq : Quiet crowdedFs := ⟨rfl, by decide⟩
  have hdir : (crowdedImage.ino ROOTINO).type = T_DIR := by rw [ino_crowded (by decide)]; rfl
  have hmod : (crowdedImage.ino ROOTINO).size % DESIZE = 0 := by rw [ino_crowded (by decide)]; decide
  have hb : binding crowdedEntries [97] = some 51 := by decide +kernel
  rw [entries_crowded]
  refine ⟨sound_crowded, hq, cached_crowded, hdir, hmod, distinct_crowded, hb, ?_⟩
  have hlook : (dirlookup 0 [97] crowdedFs).Holds (fun _ => True) _ _ :=
    dirlookup_binding sound_crowded hq cached_crowded hdir hmod
  obtain ⟨w, fs', t, hw, he⟩ := hlook.stop (by decide +kernel)
  exact ⟨fs', t, he.1 ▸ hw⟩

end ArmXv6.PathResolution
