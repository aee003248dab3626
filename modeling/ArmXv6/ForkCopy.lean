import ArmXv6.Growproc
import ArmXv6.ExecInputs

namespace ArmXv6.ForkCopy

open Lib.Exec Lib.Bytes Lib.Frames Param Blocks Vm AddressSpace Resize UserBuffers ExecInputs
open Growproc (pages)

/-- The first hi pages of directory d are there, each with its bytes and its permission, in
frames that were free in m₀, and no other page is. A frame in hand holds the next page. -/
structure Copying (m₀ m : Mm) (d hi : Nat) (bytes : Nat → List UInt8) (ap : Nat → Nat) (out : List Nat) : Prop where
  space : Space m d
  pages : ∀ g, g < hi → present (entry m d g) = true ∧ PTE_ADDR (entry m d g) ∈ m₀.freelist ∧
    PTE_AP (entry m d g) = ap g ∧
    m.ram.slice (PTE_ADDR (entry m d g)) PTE_SZ = bytes g
  rest : ∀ g, hi ≤ g → g < 65536 → present (entry m d g) = false
  hand : ∀ f, f ∈ out → Loose (holds m d) f ∧ Frame m f ∧ f ∈ m₀.freelist ∧ m.ram.slice f PTE_SZ = bytes hi
  tables : ∀ i t, i < 256 → table m d i = some t → t ∈ m₀.freelist
  free : ∀ f, f ∈ m.freelist → f ∈ m₀.freelist
  kept : ∀ f, f ∈ m.freelist → Same m₀ m f
  same : ∀ a, a % FRAME = 0 → a ≠ d → a ∉ m₀.freelist → Same m₀ m a

variable {m₀ m : Mm} {d f t hi : Nat} {bytes : Nat → List UInt8} {ap : Nat → Nat}

/-- A frame is taken from the free list and the bytes of the next page are stored in it. -/
theorem Copying.take (h : Copying m₀ m d hi bytes ap []) {rest : List Nat} (hhi : hi ≤ 65536)
    (hl : m.freelist = f :: rest) (r : Mem PHYSTOP)
    (hr : ∀ a, a % FRAME = 0 → a ≠ f → Same m { m with ram := r, freelist := rest } a)
      (hb : r.slice f PTE_SZ = bytes hi) :
    Copying m₀ { m with ram := r, freelist := rest } d hi bytes ap [f] := by
  obtain ⟨hpop, hloose, hframe⟩ := h.space.pop hl
  have hmem : f ∈ m.freelist := by
    rw [hl]
    exact List.mem_cons_self
  obtain ⟨hspace, hholds, htab, hent⟩ := hpop.write { m with ram := r, freelist := rest } rfl rfl fun a ha => by
    refine hr a ?_ ?_
    · rcases ha with ha | ⟨i, ha⟩
      · exact (hpop.frame _ a ha).aligned
      · exact (hpop.frame _ a ha).aligned
    · rintro rfl
      rcases ha with ha | ⟨i, ha⟩
      · exact hloose _ ha
      · exact hloose _ ha
  have hent' : ∀ g, g < 65536 → entry { m with ram := r, freelist := rest } d g = entry m d g := fun g hg =>
    (hent g hg).trans (entry_freelist m d g rest)
  have htab' : ∀ i, i < 256 → table { m with ram := r, freelist := rest } d i = table m d i := fun i hi =>
    (htab i hi).trans (table_freelist m d i rest)
  have hsub : ∀ x, x ∈ rest → x ∈ m.freelist := by
    intro x hx
    rw [hl]
    exact List.mem_cons_of_mem f hx
  refine ⟨hspace, fun g hg => ?_, fun g h₁ h₂ => ?_, fun x hx => ?_, fun i u hlt hu => ?_, fun x hx =>
    h.free x (hsub x hx),
    fun x hx => ?_, fun a ha hd hfree => ?_⟩
  · have hg' : g < 65536 := by omega
    obtain ⟨hp, hf₀, hap, hbytes⟩ := h.pages g hg
    have hframe' := h.space.frame (.page g) _ ⟨hg', hp, rfl⟩
    have hne : PTE_ADDR (entry m d g) ≠ f := by
      intro he
      cases h.space.apart (.page g) .free f ⟨hg', hp, he⟩ hmem
    rw [hent' g hg']
    exact ⟨hp, hf₀, hap, ((hr _ hframe'.aligned hne).slice_at hframe'.aligned).trans hbytes⟩
  · rw [hent' g h₂]
    exact h.rest g h₁ h₂
  · cases List.mem_singleton.1 hx
    exact ⟨fun o ho => hloose o ((hholds o f).1 ho), ⟨hframe.aligned, hframe.above, hframe.below, hframe.pos⟩,
      h.free f hmem, hb⟩
  · exact h.tables i u hlt ((htab' i hlt).symm.trans hu)
  · refine (h.kept x (hsub x hx)).trans (hr x (h.space.frame .free x (hsub x hx)).aligned ?_)
    rintro rfl
    exact hloose .free hx
  · refine (h.same a ha hd hfree).trans (hr a ha ?_)
    rintro rfl
    exact hfree (h.free a hmem)

theorem Copying.newTable (h : Copying m₀ m d hi bytes ap [f]) {rest : List Nat} (hhi : hi < 65536)
    (ht : table m d (hi / 256) = none)
    (hl : m.freelist = t :: rest) :
    Copying m₀ { m with ram := (m.ram.fill t PGSIZE 0).setWord (d + 4 * (hi / 256)) (t ||| 1), freelist := rest } d hi
      bytes ap [f] ∧
      table { m with ram := (m.ram.fill t PGSIZE 0).setWord (d + 4 * (hi / 256)) (t ||| 1), freelist := rest } d
        (hi / 256) = some t := by
  obtain ⟨hsp, hloose, hframe, hsame₁, htab₁, hent₁⟩ := h.space.popFill hl (show PGSIZE ≤ FRAME by decide)
  have hmem : t ∈ m.freelist := by
    rw [hl]
    exact List.mem_cons_self
  have hal : t % 262144 = 0 := hframe.aligned
  have hbelow : t < 134217728 := hframe.below
  have hi' : hi / 256 < 256 := by omega
  obtain ⟨hspace, hself, htab₂, hent₂, hsame₂⟩ := hsp.attachTable hloose
    ⟨hframe.aligned, hframe.above, hframe.below, hframe.pos⟩ hi' ((htab₁ _ hi').trans ht) fun x hx =>
      word_fill_within _ (Nat.le_add_right _ _) (by change _ ≤ t + 65536; omega)
        (by rw [phystop_eq]; change t + 65536 ≤ _; omega)
  have hent : ∀ g, g < 65536 →
      entry { m with ram := (m.ram.fill t PGSIZE 0).setWord (d + 4 * (hi / 256)) (t ||| 1), freelist := rest } d g =
      entry m d g :=
    fun g hg => (hent₂ g hg).trans (hent₁ g hg)
  have htab : ∀ i, i < 256 → i ≠ hi / 256 →
      table { m with ram := (m.ram.fill t PGSIZE 0).setWord (d + 4 * (hi / 256)) (t ||| 1), freelist := rest } d i =
        table m d i :=
    fun i hi hne => (htab₂ i hi hne).trans (htab₁ i hi)
  have hsame : ∀ a, a % FRAME = 0 → a ≠ t → a ≠ d →
      Same m { m with ram := (m.ram.fill t PGSIZE 0).setWord (d + 4 * (hi / 256)) (t ||| 1), freelist := rest } a :=
    fun a ha hne hd => (hsame₁ a ha hne).trans (hsame₂ a ha hd)
  have hsub : ∀ x, x ∈ rest → x ∈ m.freelist := by
    intro x hx
    rw [hl]
    exact List.mem_cons_of_mem t hx
  refine ⟨⟨hspace, fun g hg => ?_, fun g h₁ h₂ => ?_, fun x hx => ?_, fun i u hlt hu => ?_, fun x hx =>
    h.free x (hsub x hx),
    fun x hx => ?_, fun a ha hd hfree => ?_⟩, hself⟩
  · have hg' : g < 65536 := by omega
    obtain ⟨hp, hf₀, hap, hbytes⟩ := h.pages g hg
    have hframe' := h.space.frame (.page g) _ ⟨hg', hp, rfl⟩
    have hne : PTE_ADDR (entry m d g) ≠ t := by
      intro he
      cases h.space.apart (.page g) .free t ⟨hg', hp, he⟩ hmem
    have hne' : PTE_ADDR (entry m d g) ≠ d := by
      intro he
      cases h.space.apart (.page g) .dir d ⟨hg', hp, he⟩ rfl
    rw [hent g hg']
    exact ⟨hp, hf₀, hap, ((hsame _ hframe'.aligned hne hne').slice_at hframe'.aligned).trans hbytes⟩
  · rw [hent g h₂]
    exact h.rest g h₁ h₂
  · obtain ⟨hl₀, hfr, hfree, hbytes⟩ := h.hand x hx
    have hxt : x ≠ t := by
      rintro rfl
      exact hl₀ .free hmem
    have hxd : x ≠ d := fun he => hl₀ .dir he
    refine ⟨fun o ho => ?_, ⟨hfr.aligned, hfr.above, hfr.below, hfr.pos⟩, hfree,
      ((hsame x hfr.aligned hxt hxd).slice_at hfr.aligned).trans hbytes⟩
    cases o with
    | dir => exact hxd ho
    | free => exact hl₀ .free (hsub x ho)
    | table i =>
        by_cases hih : i = hi / 256
        · subst hih
          exact hxt (Option.some.inj (hself.symm.trans ho.2)).symm
        · exact hl₀ (.table i) ⟨ho.1, (htab i ho.1 hih).symm.trans ho.2⟩
    | page g =>
        have ho' := ho.2
        rw [hent g ho.1] at ho'
        exact hl₀ (.page g) ⟨ho.1, ho'⟩
  · by_cases hih : i = hi / 256
    · subst hih
      cases Option.some.inj (hself.symm.trans hu)
      exact h.free t hmem
    · exact h.tables i u hlt ((htab i hlt hih).symm.trans hu)
  · refine (h.kept x (hsub x hx)).trans (hsame x (h.space.frame .free x (hsub x hx)).aligned ?_ ?_)
    · rintro rfl
      exact hloose .free hx
    · rintro rfl
      cases h.space.apart .dir .free x rfl (hsub x hx)
  · refine (h.same a ha hd hfree).trans (hsame a ha ?_ hd)
    rintro rfl
    exact hfree (h.free a hmem)

theorem Copying.attach (h : Copying m₀ m d hi bytes ap [f]) (hhi : hi < 65536) (hap : ap hi < 4)
    (ht : table m d (hi / 256) = some t) :
    Copying m₀ { m with ram := m.ram.setWord (t + 4 * (hi % 256)) (mkPte f (ap hi)) } d (hi + 1) bytes ap [] := by
  obtain ⟨hloose, hframe, hfree, hbytes⟩ := h.hand f List.mem_cons_self
  have hal : f % 262144 = 0 := hframe.aligned
  have hbelow : f < 134217728 := hframe.below
  have hi' : hi / 256 < 256 := by omega
  have hw : mkPte f (ap hi) = f + (16 * ap hi + 14) := by
    rw [mkPte_eq (by omega), Nat.mod_eq_of_lt hap]
  have hadr : PTE_ADDR (mkPte f (ap hi)) = f := by
    rw [hw]
    exact pte_addr_add (by omega) (by omega)
  have hlt : mkPte f (ap hi) < 2 ^ 32 := by
    rw [hw]
    omega
  obtain ⟨htab, hself, hother, hsame⟩ := h.space.setEntry hhi ht hlt
  refine ⟨h.space.attachPage hloose hframe hhi ht hlt hadr, fun g hg => ?_, fun g h₁ h₂ => ?_, nofun,
    fun i u hlt hu => ?_, h.free,
    fun x hx => ?_, fun a ha hd hfr => ?_⟩
  · by_cases hgh : g = hi
    · subst hgh
      have hft : f ≠ t := by
        rintro rfl
        exact hloose (.table (g / 256)) ⟨hi', ht⟩
      rw [hself, hadr]
      refine ⟨?_, hfree, ?_, ((hsame f hframe.aligned hft).slice_at hframe.aligned).trans hbytes⟩
      · rw [hw]
        simp only [present, decide_eq_true_eq]
        omega
      · rw [hw]
        change (f + (16 * ap g + 14)) / 16 % 4 = ap g
        omega
    · have hg' : g < 65536 := by omega
      obtain ⟨hp, hf₀, hperm, hz⟩ := h.pages g (by omega)
      have hframe' := h.space.frame (.page g) _ ⟨hg', hp, rfl⟩
      have hne : PTE_ADDR (entry m d g) ≠ t := by
        intro he
        cases h.space.apart (.page g) (.table (hi / 256)) t ⟨hg', hp, he⟩ ⟨hi', ht⟩
      rw [hother g hg' hgh]
      exact ⟨hp, hf₀, hperm, ((hsame _ hframe'.aligned hne).slice_at hframe'.aligned).trans hz⟩
  · rw [hother g h₂ (by omega)]
    exact h.rest g (by omega) h₂
  · exact h.tables i u hlt ((htab i hlt).symm.trans hu)
  · refine (h.kept x hx).trans (hsame x (h.space.frame .free x hx).aligned ?_)
    rintro rfl
    cases h.space.apart .free (.table (hi / 256)) x hx ⟨hi', ht⟩
  · refine (h.same a ha hd hfr).trans (hsame a ha ?_)
    rintro rfl
    exact hfr (h.tables (hi / 256) a hi' ht)

theorem get_copy {n : Nat} (r : Mem n) (dst src len i : Nat) :
    (r.copy dst src len).get i = if i < n ∧ dst ≤ i ∧ i < dst + len then r.get (src + (i - dst)) else r.get i := by
  by_cases hi : i < n
  · simp [Mem.get, Mem.copy, hi]
  · simp [Mem.get, hi]

theorem slice_copy {n : Nat} (r : Mem n) {dst src len : Nat} (h : dst + len ≤ n) :
    (r.copy dst src len).slice dst len = r.slice src len := by
  apply List.ext_getElem
  · rw [Mem.length_slice, Mem.length_slice]
  · intro k hk hk'
    rw [Mem.length_slice] at hk
    rw [Mem.getElem_slice, Mem.getElem_slice, get_copy, if_pos (by omega)]
    congr 1
    omega

theorem same_copy {src : Nat} {l : List Nat} (hf : f % FRAME = 0) {a : Nat} (ha : a % FRAME = 0) (hne : a ≠ f) :
    Same m { m with ram := m.ram.copy f src PTE_SZ, freelist := l } a := by
  intro i hi
  change (m.ram.copy f src PTE_SZ).get i = m.ram.get i
  rw [get_copy, if_neg]
  rintro ⟨-, h₁, h₂⟩
  rw [frame_eq] at hf ha hi
  have hsz : PTE_SZ = 4096 := rfl
  omega

section Copy

variable {p sz : Nat} (hp : Space m₀ p) (hb : Below m₀ p (pages sz)) (hloose : Loose (holds m₀ p) d) (hsz : sz < 2 ^ 28)
  (hbytes : bytes = fun g => m₀.ram.slice (PTE_ADDR (entry m₀ p g)) PTE_SZ) (hap : ap = fun g => PTE_AP (entry m₀ p g))

include hp hloose

theorem Copying.source {out : List Nat} (h : Copying m₀ m d hi bytes ap out) :
    (∀ i, i < 256 → table m p i = table m₀ p i) ∧ (∀ g, g < 65536 → entry m p g = entry m₀ p g) ∧
      ∀ g, g < 65536 → present (entry m₀ p g) = true →
        m.ram.slice (PTE_ADDR (entry m₀ p g)) PTE_SZ = m₀.ram.slice (PTE_ADDR (entry m₀ p g)) PTE_SZ := by
  have hsame : ∀ o f, o ≠ .free → holds m₀ p o f → Same m₀ m f := by
    intro o f ho hf
    refine h.same f (hp.frame o f hf).aligned ?_ fun hfree => ho (hp.apart o .free f hf hfree)
    rintro rfl
    exact hloose o hf
  obtain ⟨htab, hent⟩ := hp.views m fun f hf => by
    rcases hf with hf | ⟨i, hf⟩
    · exact hsame _ f (by simp) hf
    · exact hsame _ f (by simp) hf
  refine ⟨htab, hent, fun g hg hpres => ?_⟩
  have hpage : holds m₀ p (.page g) (PTE_ADDR (entry m₀ p g)) := ⟨hg, hpres, rfl⟩
  exact (hsame _ _ (by simp) hpage).slice_at (hp.frame _ _ hpage).aligned

include hb hsz hbytes hap

theorem copy_loop (fuel : Nat) (h : Copying m₀ m d hi bytes ap []) (hhi : hi ≤ pages sz)
    (hfuel : pages sz ≤ hi + fuel) :
    (copyuvm.loop p sz d fuel (hi * 4096) m).Holds (fun _ => True)
      (fun r m' => ∀ x, r = some x → x = d ∧ Copying m₀ m' d (pages sz) bytes ap []) fun _ _ => True := by
  have hbad : ∀ m : Mm, ((do
      freevm d
      pure none : MmM (Option Nat)) m).Holds (fun _ => True)
      (fun r m' => ∀ x, r = some x → x = d ∧ Copying m₀ m' d (pages sz) bytes ap []) fun _ _ => True := by
    intro m
    rw [holds_bind]
    refine (gives_any (freevm d) m).mono (fun _ m' _ => ?_) fun _ _ h => h
    rw [holds_pure]
    exact fun x hx => nomatch hx
  have htop : pages sz = (sz + 4095) / 4096 := rfl
  induction fuel generalizing hi m with
  | zero =>
      have he : hi = pages sz := by omega
      subst he
      rw [copyuvm.loop, holds_pure]
      exact fun x hx => ⟨(Option.some.inj hx).symm, h⟩
  | succ fuel ih =>
      unfold copyuvm.loop
      rw [holds_ite]
      refine ⟨fun hlt => ?_, fun hge => ?_⟩
      · have hlt' : hi < pages sz := by omega
        have hhi' : hi < 65536 := by omega
        obtain ⟨htab, hent, hslice⟩ := h.source hp hloose
        have hpres : present (entry m₀ p hi) = true := (hb hi hhi').2 hlt'
        obtain ⟨t, ht⟩ : ∃ t, table m p (hi / 256) = some t := by
          cases ht : table m p (hi / 256) with
          | some t => exact ⟨t, rfl⟩
          | none =>
              rw [← hent hi hhi', entry_of_none ht] at hpres
              cases hpres
        have hword : m.ram.word (t + 4 * (hi % 256)) = entry m₀ p hi := by
          rw [← hent hi hhi', entry_of_table ht]
        have hwalk : walkpgdir p (hi * 4096) false m = .ok (some (t + 4 * (hi % 256))) m [] := by
          rw [← pte_idx_page]
          exact walkpgdir_some (by rw [pde_idx_page]; exact ht) false
        rw [holds_bind]
        refine holds_of_ok hwalk ?_
        dsimp only
        rw [holds_bind, holds_fetch, hword, if_neg (not_not.mpr hpres), holds_bind]
        cases hl : m.freelist with
        | nil => exact holds_of_ok (kalloc_nil hl) (hbad m)
        | cons f rest =>
            have hframe := (h.space.pop hl).2.2
            have hbelow : f < 134217728 := hframe.below
            have hal : f % 262144 = 0 := hframe.aligned
            have htake : (m.ram.copy f (PTE_ADDR (entry m₀ p hi)) PTE_SZ).slice f PTE_SZ = bytes hi := by
              rw [slice_copy _ (by rw [phystop_eq]; change f + 4096 ≤ _; omega), hslice hi hhi' hpres, hbytes]
            have h₁ := h.take (by omega) hl _ (fun a ha hne => same_copy hframe.aligned ha hne) htake
            have hperm : ap hi = PTE_AP (entry m₀ p hi) := by rw [hap]
            have hap4 : ap hi < 4 := by
              rw [hperm]
              exact Nat.mod_lt _ (by decide)
            have hnot := h₁.rest hi (Nat.le_refl _) hhi'
            have hnext : hi * 4096 + PTE_SZ = (hi + 1) * 4096 := (Nat.succ_mul hi 4096).symm
            refine holds_of_ok (kalloc_cons hl) ?_
            dsimp only
            rw [holds_bind]
            refine holds_of_ok (update_apply _ _) ?_
            rw [holds_bind, ← hperm, hnext]
            cases ht₁ : table { m with ram := m.ram.copy f (PTE_ADDR (entry m₀ p hi)) PTE_SZ, freelist := rest } d
              (hi / 256) with
            | some t =>
                refine holds_of_ok (mappages_some hhi' f (ap hi) ht₁ hnot) ?_
                rw [if_neg (by decide)]
                exact ih (h₁.attach hhi' hap4 ht₁) (by omega) (by omega)
            | none =>
                cases rest with
                | nil =>
                    refine holds_of_ok (mappages_none hhi' f (ap hi) ht₁ rfl) ?_
                    rw [if_pos (by decide), holds_bind]
                    exact holds_of_ok (emit_apply _ _) (hbad _)
                | cons t rest =>
                    obtain ⟨h₂, ht₂⟩ := h₁.newTable hhi' ht₁ rfl
                    have hn₂ := h₂.rest hi (Nat.le_refl _) hhi'
                    rw [entry_of_table ht₂] at hn₂
                    refine holds_of_ok (mappages_table hhi' f (ap hi) ht₁ rfl hn₂) ?_
                    rw [if_neg (by decide)]
                    exact ih (h₂.attach hhi' hap4 ht₂) (by omega) (by omega)
      · have he : hi = pages sz := by omega
        subst he
        rw [holds_pure]
        exact fun x hx => ⟨(Option.some.inj hx).symm, h⟩

end Copy

/-- The free frames hold no entry of a page directory: kfree clears a frame, and the link to the
next free frame that it stores at the front has no type bits. setupvm relies on it. -/
def Clean (m : Mm) : Prop := ∀ f, f ∈ m.freelist → ∀ i, i < 256 → present (m.ram.word (f + 4 * i)) = false

theorem Clean.space (hc : Clean m) {rest : List Nat} (hframe : ∀ f, f ∈ m.freelist → Frame m f) (hnd : m.freelist.Nodup)
    (hl : m.freelist = d :: rest) :
    Space { m with freelist := rest } d ∧ (∀ i, i < 256 → table { m with freelist := rest } d i = none) ∧
      ∀ g, g < 65536 → entry { m with freelist := rest } d g = 0 := by
  have hmem : d ∈ m.freelist := by
    rw [hl]
    exact List.mem_cons_self
  have htab : ∀ i, i < 256 → table { m with freelist := rest } d i = none := by
    intro i hi
    unfold table
    rw [if_neg]
    rw [Bool.not_eq_true]
    exact hc d hmem i hi
  have hent : ∀ g, g < 65536 → entry { m with freelist := rest } d g = 0 :=
    fun g hg => entry_of_none (htab _ (by omega))
  rw [hl, List.nodup_cons] at hnd
  have hnone : ∀ g f, ¬holds { m with freelist := rest } d (.page g) f := by
    rintro g f ⟨hg, hpres, -⟩
    rw [hent g hg] at hpres
    cases hpres
  have hno : ∀ i f, ¬holds { m with freelist := rest } d (.table i) f := by
    rintro i f ⟨hi, ht⟩
    rw [htab i hi] at ht
    cases ht
  refine ⟨⟨fun o f ho => ?_, fun o o' f ho ho' => ?_, hnd.2⟩, htab, hent⟩
  · have hfree : f ∈ m.freelist := by
      cases o with
      | dir =>
          cases ho
          exact hmem
      | free =>
          rw [hl]
          exact List.mem_cons_of_mem d ho
      | table i => exact absurd ho (hno i f)
      | page g => exact absurd ho (hnone g f)
    obtain ⟨h₁, h₂, h₃, h₄⟩ := hframe f hfree
    exact ⟨h₁, h₂, h₃, h₄⟩
  · cases o with
    | table i => exact absurd ho (hno i f)
    | page g => exact absurd ho (hnone g f)
    | dir =>
        cases ho
        cases o' with
        | dir => rfl
        | free => exact absurd ho' hnd.1
        | table i => exact absurd ho' (hno i _)
        | page g => exact absurd ho' (hnone g _)
    | free =>
        cases o' with
        | free => rfl
        | dir =>
            cases ho'
            exact absurd ho hnd.1
        | table i => exact absurd ho' (hno i _)
        | page g => exact absurd ho' (hnone g _)

theorem Copying.start (hc : Clean m) {rest : List Nat} (hframe : ∀ f, f ∈ m.freelist → Frame m f)
    (hnd : m.freelist.Nodup)
    (hl : m.freelist = d :: rest) :
      Copying { m with freelist := rest } { m with freelist := rest } d 0 bytes ap [] := by
  obtain ⟨hfresh, htab, hent⟩ := hc.space hframe hnd hl
  refine ⟨hfresh, nofun, fun g _ hg => ?_, nofun, fun i t hi ht => ?_, fun _ h => h, fun _ _ _ _ => rfl,
    fun _ _ _ _ _ _ => rfl⟩
  · rw [hent g hg]
    rfl
  · rw [htab i hi] at ht
    cases ht

/-- Directory d of m' maps copies of the pages of p below sz in frames that were free in m, with
the same permissions, and nothing else; p has its mappings and its bytes as before. -/
structure Copied (m m' : Mm) (p d sz : Nat) : Prop where
  mappings : ∀ g, g < 65536 → entry m' p g = entry m p g
  memory : ∀ g, g < 65536 → present (entry m p g) = true →
    m'.ram.slice (PTE_ADDR (entry m p g)) PTE_SZ = m.ram.slice (PTE_ADDR (entry m p g)) PTE_SZ
  space : Space m' d
  pages : ∀ g, g * PTE_SZ < sz → present (entry m' d g) = true ∧ PTE_ADDR (entry m' d g) ∈ m.freelist ∧
    PTE_AP (entry m' d g) = PTE_AP (entry m p g) ∧
    m'.ram.slice (PTE_ADDR (entry m' d g)) PTE_SZ = m.ram.slice (PTE_ADDR (entry m p g)) PTE_SZ
  nothing : ∀ g, g < 65536 → sz ≤ g * PTE_SZ → present (entry m' d g) = false

theorem Copying.copied {p sz : Nat} {m' : Mm} {rest : List Nat} (hsp : Space { m with freelist := rest } p)
    (hloose : Loose (holds { m with freelist := rest } p) d) (hfree : ∀ f, f ∈ rest → f ∈ m.freelist)
    (h : Copying { m with freelist := rest } m' d (Growproc.pages sz)
      (fun g => m.ram.slice (PTE_ADDR (entry m p g)) PTE_SZ)
      (fun g => PTE_AP (entry m p g)) []) : Copied m m' p d sz := by
  obtain ⟨-, hent, hslice⟩ := h.source hsp hloose
  have hsz : PTE_SZ = 4096 := rfl
  have htop : Growproc.pages sz = (sz + 4095) / 4096 := rfl
  refine ⟨hent, hslice, h.space, fun g hg => ?_, fun g hg hle => ?_⟩
  · rw [hsz] at hg
    obtain ⟨hp, hf, hap, hb⟩ := h.pages g (by omega)
    exact ⟨hp, hfree _ hf, hap, hb⟩
  · rw [hsz] at hle
    exact h.rest g (by omega) hg

theorem same_setSlice {l : List UInt8} (hf : f % FRAME = 0) (hl : l.length ≤ FRAME) {a : Nat} (ha : a % FRAME = 0)
    (hne : a ≠ f) :
    Same m { m with ram := m.ram.setSlice f l } a := by
  rw [frame_eq] at hf ha
  refine sameIn_setSlice (by decide) l ?_ ?_
  · rw [frame_eq, hf, Nat.zero_add]
    exact hl
  · rw [frame_eq]
    omega

theorem Space.store {l : List UInt8} (h : Space m d) (hd : f ≠ d) (ht : ∀ i, i < 256 → table m d i ≠ some f)
    (hf : f % FRAME = 0)
    (hl : l.length ≤ FRAME) :
    Space { m with ram := m.ram.setSlice f l } d ∧ ∀ g, g < 65536 →
      entry { m with ram := m.ram.setSlice f l } d g = entry m d g := by
  obtain ⟨hspace, -, -, hent⟩ := h.write { m with ram := m.ram.setSlice f l } rfl rfl fun a ha => by
    rcases ha with ha | ⟨i, ha⟩
    · refine same_setSlice hf hl (h.frame _ a ha).aligned ?_
      rintro rfl
      exact hd ha
    · refine same_setSlice hf hl (h.frame _ a ha).aligned ?_
      rintro rfl
      exact ht i ha.1 ha.2
  exact ⟨hspace, hent⟩

end ArmXv6.ForkCopy
