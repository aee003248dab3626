import ArmXv6.Exec
import ArmXv6.Growproc

namespace ArmXv6.Copyout

open Lib.Exec Lib.Bytes Lib.Frames Param Blocks Vm Exec AddressSpace

def phys (m : Mm) (d a : Nat) : Nat := PTE_ADDR (entry m d (a / 4096)) + a % 4096

/-- The page has a page table, a present entry there, and user access. -/
def Open (m : Mm) (d g : Nat) : Prop :=
  table m d (g / 256) ≠ none ∧ present (entry m d g) = true ∧ PTE_AP (entry m d g) = AP_KU

/-- Present entries refer to different frames, which are in memory and hold neither the page
directory nor a page table. -/
structure Separate (m : Mm) (d : Nat) : Prop where
  apart : ∀ g g', g < 65536 → g' < 65536 → present (entry m d g) = true → present (entry m d g') = true →
    PTE_ADDR (entry m d g) = PTE_ADDR (entry m d g') → g = g'
  inside : ∀ g, g < 65536 → present (entry m d g) = true → PTE_ADDR (entry m d g) + 4096 ≤ PHYSTOP
  dir : ∀ g i, g < 65536 → i < 256 → present (entry m d g) = true →
    d + 4 * i + 4 ≤ PTE_ADDR (entry m d g) ∨ PTE_ADDR (entry m d g) + 4096 ≤ d + 4 * i
  tables : ∀ g i t j, g < 65536 → i < 256 → table m d i = some t → j < 256 → present (entry m d g) = true →
    t + 4 * j + 4 ≤ PTE_ADDR (entry m d g) ∨ PTE_ADDR (entry m d g) + 4096 ≤ t + 4 * j

/-- Page g has an address from va up to va + len. -/
def Meets (va len g : Nat) : Prop := max va (4096 * g) < min (va + len) (4096 * g + 4096)

/-- The bytes of buf are at va, as seen through the page directory, and no other byte has changed. -/
structure Copied (m m' : Mm) (d va : Nat) (buf : List UInt8) : Prop where
  bytes : ∀ a, va ≤ a → a < va + buf.length → m'.ram.get (phys m' d a) = buf.getD (a - va) 0
  same : ∀ x, (∀ a, va ≤ a → a < va + buf.length → x ≠ phys m d a) → m'.ram.get x = m.ram.get x
  entries : ∀ g, g < 65536 → entry m' d g = entry m d g
  freelist : m'.freelist = m.freelist

/-- No byte has changed but those at the addresses from va on. -/
structure Spared (m m' : Mm) (d va len : Nat) : Prop where
  same : ∀ x, (∀ a, va ≤ a → a < va + len → Open m d (a / 4096) → x ≠ phys m d a) → m'.ram.get x = m.ram.get x
  freelist : m'.freelist = m.freelist

/-- copyout copies or fails as it should, whatever the running process has at address 0, where
a null pointer leads. -/
def CopyExact (m : Mm) (d va : Nat) (buf : List UInt8) : Prop :=
  ∀ cur, ((∀ g, Meets va buf.length g → Open m d g) ∧ ∃ m', copyout cur d va buf m = .ok 0 m' [] ∧
    Copied m m' d va buf) ∨
    (¬∀ g, Meets va buf.length g → Open m d g) ∧ ∃ m', copyout cur d va buf m = .ok (-1) m' [] ∧
      Spared m m' d va buf.length

/-- A page without a page table comes after one that stops copyout. -/
def Guarded (m : Mm) (d va len : Nat) : Prop :=
  ∀ g, Meets va len g → table m d (g / 256) = none → ∃ g', g' < g ∧ Meets va len g' ∧ table m d (g' / 256) ≠ none ∧
    ¬Open m d g'

variable {m m' : Mm} {d va g cur : Nat} {buf l : List UInt8}

theorem pte_addr_mod (w : Nat) : PTE_ADDR w % 4096 = 0 := by
  change w / 4096 * 4096 % 4096 = 0
  exact Nat.mul_mod_left _ _

theorem uva2ka_some (cur : Nat) {t : Nat} (ht : table m d (g / 256) = some t) :
    (Open m d g → uva2ka cur d (g * 4096) m = .ok (some (PTE_ADDR (entry m d g))) m []) ∧
      (¬Open m d g → uva2ka cur d (g * 4096) m = .ok none m []) := by
  have hpde : PDE_IDX (g * 4096) = g / 256 := by
    change g * 4096 / 1048576 = _
    omega
  have hpte : PTE_IDX (g * 4096) = g % 256 := by
    change g * 4096 / 4096 % 256 = _
    omega
  have hwalk := walkpgdir_eq m d (g * 4096)
  rw [hpde, hpte, ht] at hwalk
  have hent : m.ram.word (t + 4 * (g % 256)) = entry m d g := (entry_of_table ht).symm
  unfold uva2ka Open
  simp only [bind_apply, hwalk, Option.map_some, fetch_apply, pure_apply, Run.after, List.nil_append, hent, ht]
  constructor
  · rintro ⟨-, hp, hap⟩
    simp [hp, hap, bind_apply, pure_apply, Run.after]
  · intro hn
    by_cases hp : present (entry m d g) = true
    · have hap : PTE_AP (entry m d g) ≠ AP_KU := fun hap => hn ⟨by simp, hp, hap⟩
      simp [hp, hap, pure_apply]
    · simp [hp, pure_apply]

/-- Without a page table the null pointer is followed, to address 0 of the running process. -/
theorem uva2ka_none (ht : table m d (g / 256) = none) (hcur : table m cur 0 = none) :
    ∃ w m' e, uva2ka cur d (g * 4096) m = .stop w m' e := by
  have hpde : PDE_IDX (g * 4096) = g / 256 := by
    change g * 4096 / 1048576 = _
    omega
  have hwalk := walkpgdir_eq m d (g * 4096)
  rw [hpde, ht] at hwalk
  have hzero := walkpgdir_eq m cur 0
  have hidx : PDE_IDX 0 = 0 := rfl
  rw [hidx, hcur] at hzero
  unfold uva2ka loadUser
  simp only [bind_apply, hwalk, hzero, Option.map_none, Run.after, Prog.panic]
  exact ⟨_, _, _, rfl⟩

def poke (m : Mm) (d g o : Nat) (l : List UInt8) : Mm := { m with ram := m.ram.setSlice (PTE_ADDR (entry m d g) + o) l }

section

variable {o : Nat} (hs : Separate m d) (hg : g < 65536) (hp : present (entry m d g) = true) (hl : o + l.length ≤ 4096)

include hs hg hp hl

theorem get_poke (x : Nat) : (poke m d g o l).ram.get x =
    if PTE_ADDR (entry m d g) + o ≤ x ∧
      x < PTE_ADDR (entry m d g) + o + l.length then l.getD (x - (PTE_ADDR (entry m d g) + o)) 0
    else m.ram.get x := by
  have hin := hs.inside g hg hp
  unfold poke
  rw [Mem.get_setSlice]
  refine if_congr ?_ rfl rfl
  constructor
  · rintro ⟨-, h⟩
    exact h
  · intro h
    exact ⟨by omega, h⟩

theorem table_poke {i : Nat} (hi : i < 256) : table (poke m d g o l) d i = table m d i := by
  have hdisj := hs.dir g i hg hi hp
  unfold table poke
  have hw : (m.ram.setSlice (PTE_ADDR (entry m d g) + o) l).word (d + 4 * i) = m.ram.word (d + 4 * i) := by
    unfold Mem.word
    rw [Mem.slice_setSlice_of_disjoint]
    omega
  simp only [hw]

theorem entry_poke {g' : Nat} (hg' : g' < 65536) : entry (poke m d g o l) d g' = entry m d g' := by
  have hi : g' / 256 < 256 := by omega
  have htab := table_poke hs hg hp hl hi
  cases ht : table m d (g' / 256) with
  | none => rw [entry_of_none (htab.trans ht), entry_of_none ht]
  | some t =>
      rw [entry_of_table (htab.trans ht), entry_of_table ht]
      have hdisj := hs.tables g (g' / 256) t (g' % 256) hg hi ht (by omega) hp
      unfold poke Mem.word
      simp only
      rw [Mem.slice_setSlice_of_disjoint]
      omega

theorem open_poke {g' : Nat} (hg' : g' < 65536) : Open (poke m d g o l) d g' ↔ Open m d g' := by
  unfold Open
  rw [table_poke hs hg hp hl (by omega), entry_poke hs hg hp hl hg']

theorem phys_poke {a : Nat} (ha : a < 2 ^ 28) : phys (poke m d g o l) d a = phys m d a := by
  unfold phys
  rw [entry_poke hs hg hp hl (by omega)]

theorem separate_poke : Separate (poke m d g o l) d := by
  constructor
  · intro g₁ g₂ h₁ h₂
    rw [entry_poke hs hg hp hl h₁, entry_poke hs hg hp hl h₂]
    exact hs.apart g₁ g₂ h₁ h₂
  · intro g₁ h₁
    rw [entry_poke hs hg hp hl h₁]
    exact hs.inside g₁ h₁
  · intro g₁ i h₁ hi
    rw [entry_poke hs hg hp hl h₁]
    exact hs.dir g₁ i h₁ hi
  · intro g₁ i t j h₁ hi
    rw [entry_poke hs hg hp hl h₁, table_poke hs hg hp hl hi]
    exact hs.tables g₁ i t j h₁ hi

end

theorem phys_ne (hs : Separate m d) {a b : Nat} (ha : a < 2 ^ 28) (hb : b < 2 ^ 28)
    (hpa : present (entry m d (a / 4096)) = true)
    (hpb : present (entry m d (b / 4096)) = true) (hne : a / 4096 ≠ b / 4096) : phys m d a ≠ phys m d b := by
  have h₁ := pte_addr_mod (entry m d (a / 4096))
  have h₂ := pte_addr_mod (entry m d (b / 4096))
  have hdiff : PTE_ADDR (entry m d (a / 4096)) ≠ PTE_ADDR (entry m d (b / 4096)) := fun he =>
    hne (hs.apart _ _ (by omega) (by omega) hpa hpb he)
  unfold phys
  omega

theorem meets_step {len n : Nat} (hlen : 0 < len) (hn : n = min (4096 - va % 4096) len) (g' : Nat) :
    Meets va len g' ↔ g' = va / 4096 ∨ Meets (va / 4096 * 4096 + 4096) (len - n) g' := by
  unfold Meets
  omega

theorem after_nil {ε σ α : Type} (r : Run ε σ α) : r.after [] = r := by
  cases r <;> rfl

theorem loop_nil (fuel : Nat) : copyout.loop cur d (fuel + 1) va [] m = .ok 0 m [] := by
  simp [copyout.loop, pure_apply]

theorem uint_next (hva : va < 2 ^ 28) : uint (va / 4096 * 4096 + PTE_SZ) = va / 4096 * 4096 + 4096 := by
  change (va / 4096 * 4096 + 4096) % 4294967296 = _
  omega

theorem sub_aligndown : va - va / 4096 * 4096 = va % 4096 := by omega

theorem loop_open (hva : va < 2 ^ 28) (hbuf : 0 < buf.length) (ho : Open m d (va / 4096)) (fuel : Nat) :
    copyout.loop cur d (fuel + 1) va buf m =
      copyout.loop cur d fuel (va / 4096 * 4096 + 4096) (buf.drop (min (4096 - va % 4096) buf.length))
        (poke m d (va / 4096) (va % 4096) (buf.take (min (4096 - va % 4096) buf.length))) := by
  obtain ⟨t, ht⟩ := Option.ne_none_iff_exists'.1 ho.1
  have hk := (uva2ka_some cur ht).1 ho
  have hdown : ALIGNDOWN va PTE_SZ = va / 4096 * 4096 := rfl
  have hsz : PTE_SZ = 4096 := rfl
  rw [copyout.loop, if_pos hbuf]
  change ((uva2ka cur d (va / 4096 * 4096) >>= _ : MmM Int) m) = _
  rw [bind_apply, hk]
  simp only [hdown, sub_aligndown, uint_next hva, setRam, bind_apply, update_apply, after_nil]
  rw [hsz]
  rfl

theorem loop_closed (hbuf : 0 < buf.length) (ht : table m d (va / 4096 / 256) ≠ none) (ho : ¬Open m d (va / 4096))
    (fuel : Nat) :
    copyout.loop cur d (fuel + 1) va buf m = .ok (-1) m [] := by
  obtain ⟨t, ht⟩ := Option.ne_none_iff_exists'.1 ht
  have hk := (uva2ka_some cur ht).2 ho
  rw [copyout.loop, if_pos hbuf]
  change ((uva2ka cur d (va / 4096 * 4096) >>= _ : MmM Int) m) = _
  rw [bind_apply, hk]
  rfl

/-- At a page without a page table, while the running process has nothing at address 0. -/
theorem loop_null (hbuf : 0 < buf.length) (ht : table m d (va / 4096 / 256) = none) (hcur : table m cur 0 = none)
    (fuel : Nat) :
    ∃ w m' e, copyout.loop cur d (fuel + 1) va buf m = .stop w m' e := by
  obtain ⟨w, m', e, hk⟩ := uva2ka_none ht hcur
  refine ⟨w, m', e, ?_⟩
  rw [copyout.loop, if_pos hbuf]
  change ((uva2ka cur d (va / 4096 * 4096) >>= _ : MmM Int) m) = _
  rw [bind_apply, hk]

theorem Copied.step (hs : Separate m d) (hfit : va + buf.length ≤ 2 ^ 28) (hbuf : 0 < buf.length)
    (hopen : ∀ g, Meets va buf.length g → Open m d g) {n : Nat} (hn : n = min (4096 - va % 4096) buf.length)
    (h : Copied (poke m d (va / 4096) (va % 4096) (buf.take n)) m' d (va / 4096 * 4096 + 4096) (buf.drop n)) :
    Copied m m' d va buf := by
  have hg : va / 4096 < 65536 := by omega
  have hp := (hopen (va / 4096) ((meets_step hbuf hn _).2 (.inl rfl))).2.1
  have hlen : (buf.take n).length = n := by
    rw [List.length_take]
    omega
  have hl : va % 4096 + (buf.take n).length ≤ 4096 := by omega
  have hpresent : ∀ a, va ≤ a → a < va + buf.length → present (entry m d (a / 4096)) = true := by
    intro a h₁ h₂
    refine (hopen (a / 4096) ?_).2.1
    unfold Meets
    omega
  have hrest : (buf.drop n).length = buf.length - n := List.length_drop
  have hent : ∀ g, g < 65536 → entry m' d g = entry m d g :=
    fun g hg' => (h.entries g hg').trans (entry_poke hs hg hp hl hg')
  have hphys : ∀ a, a < 2 ^ 28 → phys m' d a = phys m d a := by
    intro a ha
    unfold phys
    rw [hent _ (by omega)]
  constructor
  · intro a h₁ h₂
    by_cases hin : a < va + n
    · -- a byte of the first page, which is not written again
      have hpage : a / 4096 = va / 4096 := by omega
      rw [hphys a (by omega), h.same]
      · have hat : phys m d a = PTE_ADDR (entry m d (va / 4096)) + va % 4096 + (a - va) := by
          unfold phys
          rw [hpage]
          omega
        rw [get_poke hs hg hp hl, if_pos (by omega), hat, Nat.add_sub_cancel_left]
        simp only [List.getD_eq_getElem?_getD, List.getElem?_take]
        rw [if_pos (by omega)]
      · intro b hb₁ hb₂
        rw [phys_poke hs hg hp hl (by omega)]
        exact phys_ne hs (by omega) (by omega) (hpresent a h₁ h₂) (hpresent b (by omega) (by omega)) (by omega)
    · rw [h.bytes a (by omega) (by omega)]
      have hidx : n + (a - (va / 4096 * 4096 + 4096)) = a - va := by omega
      simp only [List.getD_eq_getElem?_getD, List.getElem?_drop, hidx]
  · intro x hx
    rw [h.same x, get_poke hs hg hp hl, if_neg]
    · intro hin
      refine hx (va + (x - (PTE_ADDR (entry m d (va / 4096)) + va % 4096))) (by omega) (by omega) ?_
      unfold phys
      rw [show (va + (x - (PTE_ADDR (entry m d (va / 4096)) + va % 4096))) / 4096 = va / 4096 by omega]
      omega
    · intro b hb₁ hb₂
      rw [phys_poke hs hg hp hl (by omega)]
      exact hx b (by omega) (by omega)
  · exact hent
  · exact h.freelist

theorem Spared.step (hs : Separate m d) (hfit : va + buf.length ≤ 2 ^ 28) (hbuf : 0 < buf.length)
    (ho : Open m d (va / 4096)) {n : Nat}
    (hn : n = min (4096 - va % 4096) buf.length)
    (h : Spared (poke m d (va / 4096) (va % 4096) (buf.take n)) m' d (va / 4096 * 4096 + 4096) (buf.drop n).length) :
    Spared m m' d va buf.length := by
  have hg : va / 4096 < 65536 := by omega
  have hp := ho.2.1
  have hlen : (buf.take n).length = n := by
    rw [List.length_take]
    omega
  have hl : va % 4096 + (buf.take n).length ≤ 4096 := by omega
  have hrest : (buf.drop n).length = buf.length - n := List.length_drop
  constructor
  · intro x hx
    rw [h.same x, get_poke hs hg hp hl, if_neg]
    · intro hin
      have hpage : (va + (x - (PTE_ADDR (entry m d (va / 4096)) + va % 4096))) / 4096 = va / 4096 := by omega
      refine hx (va + (x - (PTE_ADDR (entry m d (va / 4096)) + va % 4096))) (by omega) (by omega) (by rwa [hpage]) ?_
      unfold phys
      rw [hpage]
      omega
    · intro b hb₁ hb₂ hb
      rw [phys_poke hs hg hp hl (by omega)]
      exact hx b (by omega) (by omega) ((open_poke hs hg hp hl (by omega)).1 hb)
  · exact h.freelist

theorem Guarded.step (hs : Separate m d) (hfit : va + buf.length ≤ 2 ^ 28) (hbuf : 0 < buf.length)
    (ho : Open m d (va / 4096)) {n : Nat}
    (hn : n = min (4096 - va % 4096) buf.length) (h : Guarded m d va buf.length) :
    Guarded (poke m d (va / 4096) (va % 4096) (buf.take n)) d (va / 4096 * 4096 + 4096) (buf.drop n).length := by
  have hg : va / 4096 < 65536 := by omega
  have hl : va % 4096 + (buf.take n).length ≤ 4096 := by
    rw [List.length_take]
    omega
  have hrest : (buf.drop n).length = buf.length - n := List.length_drop
  rw [hrest]
  have hlt : ∀ g', Meets (va / 4096 * 4096 + 4096) (buf.length - n) g' → g' < 65536 ∧ va / 4096 < g' := by
    intro g' hm
    unfold Meets at hm
    omega
  intro g' hm htab
  obtain ⟨hg', -⟩ := hlt g' hm
  rw [table_poke hs hg ho.2.1 hl (by omega)] at htab
  obtain ⟨g'', hlt'', hm'', htab'', hopen''⟩ := h g' ((meets_step hbuf hn g').2 (.inr hm)) htab
  have hne : g'' ≠ va / 4096 := by
    rintro rfl
    exact hopen'' ho
  have hm₂ := ((meets_step hbuf hn g'').1 hm'').resolve_left hne
  obtain ⟨hg'', -⟩ := hlt g'' hm₂
  refine ⟨g'', hlt'', hm₂, ?_, ?_⟩
  · rwa [table_poke hs hg ho.2.1 hl (by omega)]
  · rwa [open_poke hs hg ho.2.1 hl hg'']

theorem loop_exact (cur : Nat) {fuel : Nat} (hs : Separate m d) (hfit : va + buf.length ≤ 2 ^ 28)
    (hfuel : buf.length < fuel)
    (h : Guarded m d va buf.length) :
    ((∀ g, Meets va buf.length g → Open m d g) ∧ ∃ m', copyout.loop cur d fuel va buf m = .ok 0 m' [] ∧
      Copied m m' d va buf) ∨
      (¬∀ g, Meets va buf.length g → Open m d g) ∧
        ∃ m', copyout.loop cur d fuel va buf m = .ok (-1) m' [] ∧ Spared m m' d va buf.length := by
  induction fuel generalizing m va buf with
  | zero => cases hfuel
  | succ fuel ih =>
      by_cases hbuf : 0 < buf.length
      · have hfirst : Meets va buf.length (va / 4096) := (meets_step hbuf rfl _).2 (.inl rfl)
        by_cases ho : Open m d (va / 4096)
        · have hg : va / 4096 < 65536 := by omega
          have hl : va % 4096 + (buf.take (min (4096 - va % 4096) buf.length)).length ≤ 4096 := by
            rw [List.length_take]
            omega
          have hrest :
              (buf.drop (min (4096 - va % 4096) buf.length)).length = buf.length - min
              (4096 - va % 4096) buf.length :=
            List.length_drop
          have hall : (∀ g, Meets va buf.length g → Open m d g) ↔
              ∀ g, Meets (va / 4096 * 4096 + 4096) (buf.drop (min (4096 - va % 4096) buf.length)).length g →
                Open (poke m d (va / 4096) (va % 4096) (buf.take (min (4096 - va % 4096) buf.length))) d g := by
            rw [hrest]
            constructor
            · intro hopen g' hm
              rw [open_poke hs hg ho.2.1 hl (by unfold Meets at hm; omega)]
              exact hopen g' ((meets_step hbuf rfl g').2 (.inr hm))
            · intro hopen g' hm
              rcases (meets_step hbuf rfl g').1 hm with rfl | hm'
              · exact ho
              · rw [← open_poke hs hg ho.2.1 hl (by unfold Meets at hm; omega)]
                exact hopen g' hm'
          rw [loop_open (by omega) hbuf ho fuel]
          rcases ih (separate_poke hs hg ho.2.1 hl) (by omega) (by omega) (h.step hs hfit hbuf ho rfl) with
            ⟨hopen, m', hrun, hc⟩ | ⟨hopen, m', hrun, hc⟩
          · exact .inl ⟨hall.2 hopen, m', hrun, hc.step hs hfit hbuf (hall.2 hopen) rfl⟩
          · exact .inr ⟨fun hopen' => hopen (hall.1 hopen'), m', hrun, hc.step hs hfit hbuf ho rfl⟩
        · -- the first page stops the loop, and it has a page table
          have ht : table m d (va / 4096 / 256) ≠ none := by
            intro ht
            obtain ⟨g', hlt, hm, -⟩ := h _ hfirst ht
            unfold Meets at hm
            omega
          exact .inr ⟨fun hopen => ho (hopen _ hfirst), m, loop_closed hbuf ht ho fuel, fun _ _ => rfl, rfl⟩
      · have hnil : buf = [] := List.length_eq_zero_iff.1 (by omega)
        subst hnil
        refine .inl ⟨fun g hm => ?_, m, loop_nil fuel, fun a h₁ h₂ => ?_, fun _ _ => rfl, fun _ _ => rfl, rfl⟩
        · unfold Meets at hm
          simp only [List.length_nil] at hm
          omega
        · simp only [List.length_nil] at h₂
          omega

theorem table_top (m : Mm) : table m PHYSTOP 0 = none := by
  have hw : m.ram.word (PHYSTOP + 4 * 0) = 0 := by
    have hget : ∀ k, m.ram.get (PHYSTOP + k) = 0 := by
      intro k
      unfold Mem.get
      rw [dif_neg (by omega)]
    simp [Mem.word, Mem.slice, List.range_succ, hget, leNat]
  unfold table
  rw [hw]
  rfl

theorem loop_stops {fuel : Nat} (hs : Separate m d) (hfit : va + buf.length ≤ 2 ^ 28) (hfuel : buf.length < fuel)
    (h : ¬Guarded m d va buf.length) : ∃ w m' e, copyout.loop PHYSTOP d fuel va buf m = .stop w m' e := by
  unfold Guarded at h
  push Not at h
  obtain ⟨g, hm, ht, hbefore⟩ := h
  induction fuel generalizing m va buf with
  | zero => cases hfuel
  | succ fuel ih =>
      have hbuf : 0 < buf.length := by
        unfold Meets at hm
        omega
      have hfirst : Meets va buf.length (va / 4096) := (meets_step hbuf rfl _).2 (.inl rfl)
      by_cases ht₀ : table m d (va / 4096 / 256) = none
      · exact loop_null hbuf ht₀ (table_top m) fuel
      · have hne : g ≠ va / 4096 := by
          rintro rfl
          exact ht₀ ht
        have hm' := ((meets_step hbuf rfl g).1 hm).resolve_left hne
        have ho : Open m d (va / 4096) := hbefore _ (by unfold Meets at hm'; omega) hfirst ht₀
        have hg : va / 4096 < 65536 := by omega
        have hl : va % 4096 + (buf.take (min (4096 - va % 4096) buf.length)).length ≤ 4096 := by
          rw [List.length_take]
          omega
        have hrest :
            (buf.drop (min (4096 - va % 4096) buf.length)).length = buf.length - min (4096 - va % 4096) buf.length :=
          List.length_drop
        rw [loop_open (by omega) hbuf ho fuel]
        refine ih (separate_poke hs hg ho.2.1 hl) (by omega) (by omega) (by rwa [hrest]) ?_ fun g' hlt hm₂ ht₂ => ?_
        · rwa [table_poke hs hg ho.2.1 hl (by unfold Meets at hm; omega)]
        · rw [hrest] at hm₂
          have hg' : g' < 65536 := by
            unfold Meets at hm₂
            omega
          rw [table_poke hs hg ho.2.1 hl (by omega)] at ht₂
          rw [open_poke hs hg ho.2.1 hl hg']
          exact hbefore g' hlt ((meets_step hbuf rfl g').2 (.inr hm₂)) ht₂

theorem copyout_exact_iff (hs : Separate m d) (hfit : va + buf.length ≤ UADDR_SZ) : CopyExact m d va buf ↔
    Guarded m d va buf.length := by
  change va + buf.length ≤ 2 ^ 28 at hfit
  constructor
  · intro hx
    by_contra hn
    obtain ⟨w, m', e, hrun⟩ := loop_stops hs hfit (Nat.lt_succ_self _) hn
    rcases hx PHYSTOP with ⟨-, m'', hrun', -⟩ | ⟨-, m'', hrun', -⟩
    · cases hrun.symm.trans hrun'
    · cases hrun.symm.trans hrun'
  · intro h cur
    exact loop_exact cur hs hfit (Nat.lt_succ_self _) h

theorem separate_of_space (h : Space m d) : Separate m d := by
  have hframe : ∀ g, g < 65536 → present (entry m d g) = true → Frame m (PTE_ADDR (entry m d g)) := fun g hg hp =>
    h.frame (.page g) _ ⟨hg, hp, rfl⟩
  have hdir := h.dir.aligned
  rw [frame_eq] at hdir
  constructor
  · intro g g' hg hg' hp hp' he
    exact Owner.page.inj (h.apart (.page g) (.page g') _ ⟨hg, hp, rfl⟩ ⟨hg', hp', he.symm⟩)
  · intro g hg hp
    have h₁ := (hframe g hg hp).aligned
    have h₂ := (hframe g hg hp).below
    rw [frame_eq] at h₁
    rw [phystop_eq] at h₂ ⊢
    omega
  · intro g i hg hi hp
    have h₁ := (hframe g hg hp).aligned
    rw [frame_eq] at h₁
    have hne : PTE_ADDR (entry m d g) ≠ d := by
      intro he
      cases h.apart (.page g) .dir d ⟨hg, hp, he⟩ rfl
    omega
  · intro g i t j hg hi ht hj hp
    have h₁ := (hframe g hg hp).aligned
    have h₂ := (h.table hi ht).aligned
    rw [frame_eq] at h₁ h₂
    have hne : PTE_ADDR (entry m d g) ≠ t := by
      intro he
      cases h.apart (.page g) (.table i) t ⟨hg, hp, he⟩ ⟨hi, ht⟩
    omega

theorem copyout_exact_iff_onePage : Guarded Growproc.onePage.mm FRAME 4000 2 ∧
    CopyExact Growproc.onePage.mm FRAME 4000 [1, 2] := by
  have hs : Separate Growproc.onePage.mm FRAME := separate_of_space Growproc.onePage_shaped.space
  have hg : Guarded Growproc.onePage.mm FRAME 4000 2 := by
    intro g hm ht
    have hzero : g = 0 := by
      unfold Meets at hm
      omega
    subst hzero
    have hsome : (table Growproc.onePage.mm FRAME (0 / 256)).isSome = true := by decide +kernel
    rw [ht] at hsome
    cases hsome
  exact ⟨hg, (copyout_exact_iff hs (by decide)).2 hg⟩

/-- A byte for a process without any page table. -/
theorem copyout_follows_null : Separate Growproc.bareMm FRAME ∧ 0 + [(1 : UInt8)].length ≤ UADDR_SZ ∧
    ¬CopyExact Growproc.bareMm FRAME 0 [1] := by
  have hs : Separate Growproc.bareMm FRAME := separate_of_space Growproc.bare_space
  refine ⟨hs, by decide, fun hx => ?_⟩
  obtain ⟨w, m', e, hrun⟩ :=
    loop_null (show 0 < [(1 : UInt8)].length by decide) (Growproc.bare_table (0 / 4096 / 256)) (table_top _) 1
  rcases hx PHYSTOP with ⟨-, m'', hrun', -⟩ | ⟨-, m'', hrun', -⟩
  · cases hrun.symm.trans hrun'
  · cases hrun.symm.trans hrun'

end ArmXv6.Copyout
