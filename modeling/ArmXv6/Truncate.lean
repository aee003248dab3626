import ArmXv6.FileData

namespace ArmXv6.Truncate

open Lib.Exec Lib.Bytes Param Blocks Fs Content DiskImage BlockSpecs BlockAlloc Ownership BlockMap FileData

def blocksOf (A : Image) (i : Nat) (R : Set Nat) : Set Nat := {b | b ≠ 0 ∧ ∃ k ∈ R, slot A i k = b}

variable {v : Volume} {A A' A₀ : Image} {S X D R : Set Nat} {fs fs' : Fs} {ip i b j : Nat}
  {ok : Stop → Prop} {G : Event → Prop}

theorem owns_detach (ho : Owns v A S X) (hi : Live v A i) (hS : i ∉ S) :
    Owns v A (insert i S) (X ∪ blocksOf A i Set.univ) := by
  refine ⟨ho.din, ?_, ?_, ?_, ?_⟩
  · intro j k hj hjS hk
    rw [Set.mem_insert_iff, not_or] at hjS
    exact ho.range j k hj hjS.2 hk
  · intro j j' k k' hj hjS hj' hjS' hk he
    rw [Set.mem_insert_iff, not_or] at hjS hjS'
    exact ho.inj j j' k k' hj hjS.2 hj' hjS'.2 hk he
  · rintro c (hc | ⟨hc0, k, -, rfl⟩)
    · obtain ⟨h1, h2, h3⟩ := ho.loose c hc
      exact ⟨h1, h2, fun j l hj hjS => h3 j l hj fun h => hjS (.inr h)⟩
    · obtain ⟨h1, h2⟩ := ho.range i k hi hS hc0
      refine ⟨h1, h2, fun j l hj hjS he => ?_⟩
      rw [Set.mem_insert_iff, not_or] at hjS
      exact hjS.1 (ho.inj i j k l hi hS hj hjS.2 hc0 he.symm).1.symm
  · intro c hc
    rw [ho.used c hc]
    refine or_congr_right' fun hcd => ?_
    have hc0 : c ≠ 0 := by have := v.one_lt_dataStart; omega
    constructor
    · rintro (hX | ⟨j, k, hj, hjS, he⟩)
      · exact .inl (.inl hX)
      · by_cases hji : j = i
        · subst hji
          exact .inl (.inr ⟨hc0, k, trivial, he⟩)
        · exact .inr ⟨j, k, hj, by rw [Set.mem_insert_iff, not_or]; exact ⟨hji, hjS⟩, he⟩
    · rintro ((hX | ⟨-, k, -, he⟩) | ⟨j, k, hj, hjS, he⟩)
      · exact .inl hX
      · exact .inr ⟨i, k, hi, hS, he⟩
      · exact .inr ⟨j, k, hj, fun h => hjS (.inr h), he⟩

theorem owns_dead (ho : Owns v A (insert i S) X) (hi : ¬Live v A i) : Owns v A S X := by
  have hset : ∀ j, Live v A j → (j ∉ insert i S ↔ j ∉ S) := by
    intro j hj
    have hji : j ≠ i := fun he => hi (he ▸ hj)
    simp [hji]
  refine ⟨ho.din, ?_, ?_, ?_, ?_⟩
  · intro j k hj hjS hk
    exact ho.range j k hj ((hset j hj).2 hjS) hk
  · intro j j' k k' hj hjS hj' hjS' hk he
    exact ho.inj j j' k k' hj ((hset j hj).2 hjS) hj' ((hset j' hj').2 hjS') hk he
  · intro c hc
    obtain ⟨h1, h2, h3⟩ := ho.loose c hc
    exact ⟨h1, h2, fun j l hj hjS => h3 j l hj ((hset j hj).2 hjS)⟩
  · intro c hc
    rw [ho.used c hc]
    refine or_congr Iff.rfl (or_congr Iff.rfl (exists_congr fun j => exists_congr fun k => ?_))
    constructor
    · rintro ⟨hj, hjS, he⟩
      exact ⟨hj, (hset j hj).1 hjS, he⟩
    · rintro ⟨hj, hjS, he⟩
      exact ⟨hj, (hset j hj).2 hjS, he⟩

theorem owns_free (ho : Owns v A S X) (hb : b ∈ X) : Owns v (A.free b) S (X \ {b}) := by
  obtain ⟨hlo, hhi, hno⟩ := ho.loose b hb
  have hslot : ∀ j k, slot (A.free b) j k = slot A j k := fun _ _ => rfl
  refine ⟨ho.din, ho.range, ho.inj, fun c hc => ho.loose c hc.1, ?_⟩
  intro c hc
  by_cases hcb : c = b
  · subst hcb
    simp only [Image.free, Function.update_self, Bool.false_eq_true, false_iff, not_or]
    refine ⟨by omega, fun h => h.2 rfl, ?_⟩
    rintro ⟨j, k, hj, hjS, he⟩
    exact hno j k hj hjS he
  · simp only [Image.free, Function.update_of_ne hcb]
    rw [ho.used c hc]
    refine or_congr Iff.rfl (or_congr ?_ Iff.rfl)
    simp [hcb]

theorem owns_setIno_apart (ho : Owns v A S X) (hi : i ∈ S) {d : Dinode} (hd : DinodeOk d) :
    Owns v (A.setIno i d) S X := by
  have hne : ∀ j, j ∉ S → j ≠ i := fun j hj he => hj (he ▸ hi)
  have hino : ∀ j, j ∉ S → (A.setIno i d).ino j = A.ino j := fun j hj => Function.update_of_ne (hne j hj) _ _
  have hlive : ∀ j, j ∉ S → (Live v (A.setIno i d) j ↔ Live v A j) := by
    intro j hj
    unfold Live
    rw [hino j hj]
  have hslot : ∀ j k, j ∉ S → slot (A.setIno i d) j k = slot A j k :=
    fun j k hj => slot_congr (hino j hj) (fun _ => rfl) k
  refine ⟨?_, ?_, ?_, ?_, ?_⟩
  · intro j hj
    by_cases hji : j = i
    · simpa [hji, Image.setIno] using hd
    · simpa [hji, Image.setIno] using ho.din j hj
  · intro j k hj hjS hk
    rw [hslot j k hjS] at hk ⊢
    exact ho.range j k ((hlive j hjS).1 hj) hjS hk
  · intro j j' k k' hj hjS hj' hjS' hk he
    rw [hslot j k hjS] at hk he
    rw [hslot j' k' hjS'] at he
    exact ho.inj j j' k k' ((hlive j hjS).1 hj) hjS ((hlive j' hjS').1 hj') hjS' hk he
  · intro c hc
    obtain ⟨h1, h2, h3⟩ := ho.loose c hc
    refine ⟨h1, h2, fun j l hj hjS => ?_⟩
    rw [hslot j l hjS]
    exact h3 j l ((hlive j hjS).1 hj) hjS
  · intro c hc
    refine (ho.used c hc).trans (or_congr Iff.rfl (or_congr Iff.rfl (exists_congr fun j => exists_congr fun k => ?_)))
    constructor
    · rintro ⟨hj, hjS, he⟩
      exact ⟨(hlive j hjS).2 hj, hjS, by rw [hslot j k hjS]; exact he⟩
    · rintro ⟨hj, hjS, he⟩
      exact ⟨(hlive j hjS).1 hj, hjS, by rw [← hslot j k hjS]; exact he⟩

/-- A truncation under way: the slots in R of inode i are still to be given back. -/
structure Trunc (v : Volume) (S D : Set Nat) (A₀ : Image) (ip i : Nat) (fs₀ : Fs) (R : Set Nat) (A : Image) (fs : Fs) :
    Prop where
  rep : Rep v A (insert i D) fs
  owns : Owns v A (insert i S) (blocksOf A₀ i R)
  others : ∀ j, j ≠ i → A.ino j = A₀.ino j
  data : A.data = A₀.data
  ino : ∃ f, A.ino i = { A₀.ino i with addrs := f }
  left : ∀ k ≤ NDIRECT, k ∈ R → (A.ino i).addrs k = (A₀.ino i).addrs k
  done : ∀ k ≤ NDIRECT, k ∉ R → (A.ino i).addrs k = 0
  edits : Edits ip fs₀ fs

theorem trunc_bfree {fs₀ : Fs} {k : Nat} (h : Trunc v S D A₀ ip i fs₀ R A fs) (hok : Lenient ok)
    (hbusy : fs₀.log.busy = true) (hinj : ∀ k l, slot A₀ i k ≠ 0 → slot A₀ i k = slot A₀ i l → k = l)
    (hk : k ∈ R) (hne : slot A₀ i k ≠ 0) (hb : slot A₀ i k = b) :
    (bfree b fs).Holds G (fun _ fs' => Rep v (A.free b) (insert i D) fs' ∧
      Owns v (A.free b) (insert i S) (blocksOf A₀ i (R \ {k})) ∧ Kept fs fs') (fun w _ => ok w) := by
  subst hb
  have hmem : slot A₀ i k ∈ blocksOf A₀ i R := ⟨hne, k, hk, rfl⟩
  obtain ⟨hlo, hhi, -⟩ := h.owns.loose _ hmem
  have hlt := hhi.trans v.logStart_lt_size
  have hset : blocksOf A₀ i R \ {slot A₀ i k} = blocksOf A₀ i (R \ {k}) := by
    ext c
    constructor
    · rintro ⟨⟨hc, l, hl, rfl⟩, hc'⟩
      exact ⟨hc, l, ⟨hl, fun he => hc' (by rw [Set.mem_singleton_iff.1 he]; rfl)⟩, rfl⟩
    · rintro ⟨hc, l, ⟨hl, hlk⟩, rfl⟩
      exact ⟨⟨hc, l, hl, rfl⟩, fun he => hlk (hinj l k hc he)⟩
  refine (bfree_spec h.rep hok (h.edits.busy.trans hbusy) hlt ((h.owns.used _ hlt).2 (.inr (.inl hmem)))).mono ?_
    fun _ _ => id
  rintro _ fs' ⟨hrep, hkept⟩
  exact ⟨hrep, hset ▸ owns_free h.owns hmem, hkept⟩

theorem trunc_slot_done {fs₀ : Fs} {k : Nat} (h : Trunc v S D A₀ ip i fs₀ R A fs) (h0 : slot A₀ i k = 0) :
    Owns v A (insert i S) (blocksOf A₀ i (R \ {k})) := by
  have hset : blocksOf A₀ i R = blocksOf A₀ i (R \ {k}) := by
    ext c
    constructor
    · rintro ⟨hc, l, hl, rfl⟩
      exact ⟨hc, l, ⟨hl, fun he => hc (by rw [Set.mem_singleton_iff.1 he]; exact h0)⟩, rfl⟩
    · rintro ⟨hc, l, hl, rfl⟩
      exact ⟨hc, l, hl.1, rfl⟩
  exact hset ▸ h.owns

theorem trunc_clear {fs₀ : Fs} {k : Nat} (hc : Cached v A fs ip i)
    (hrep : Rep v A (insert i D) fs) (howns : Owns v A (insert i S) (blocksOf A₀ i (R \ {k})))
    (hothers : ∀ j, j ≠ i → A.ino j = A₀.ino j) (hdata : A.data = A₀.data)
    (hino : ∃ f, A.ino i = { A₀.ino i with addrs := f })
    (hleft : ∀ l ≤ NDIRECT, l ∈ R → (A.ino i).addrs l = (A₀.ino i).addrs l)
    (hdone : ∀ l ≤ NDIRECT, l ∉ R → (A.ino i).addrs l = 0) (hed : Edits ip fs₀ fs) :
    Trunc v S D A₀ ip i fs₀ (R \ {k}) (A.setIno i { A.ino i with addrs := Function.update (A.ino i).addrs k 0 })
      (putDin fs ip { A.ino i with addrs := Function.update (A.ino i).addrs k 0 }) := by
  have hd := howns.din i hc.live.1
  have hd' : DinodeOk { A.ino i with addrs := Function.update (A.ino i).addrs k 0 } := by
    refine { hd with addrs := fun l => ?_, none := fun l hl => ?_ }
    · simp only [Function.update_apply]
      split
      · decide
      · exact hd.addrs l
    · simp only [Function.update_apply]
      split
      · rfl
      · exact hd.none l hl
  have hself : (A.setIno i { A.ino i with addrs := Function.update (A.ino i).addrs k 0 }).ino i =
      { A.ino i with addrs := Function.update (A.ino i).addrs k 0 } := Function.update_self ..
  have hrep' := rep_putDin hrep hc { A.ino i with addrs := Function.update (A.ino i).addrs k 0 }
  rw [Set.insert_idem] at hrep'
  refine ⟨hrep', owns_setIno_apart howns (Set.mem_insert i S) hd', ?_, hdata, ?_, ?_, ?_, hed.trans (edits_putDin ..)⟩
  · intro j hj
    rw [← hothers j hj]
    exact Function.update_of_ne hj _ _
  · obtain ⟨f, hf⟩ := hino
    exact ⟨Function.update (A.ino i).addrs k 0, by rw [hself, hf]⟩
  · rintro l hl ⟨hlR, hlk⟩
    have hlk' : l ≠ k := hlk
    rw [hself, ← hleft l hl hlR]
    simp [hlk']
  · intro l hl hlR
    rw [hself]
    by_cases hlk : l = k
    · simp [hlk]
    · have : l ∉ R := fun h => hlR ⟨h, hlk⟩
      simp [hlk, hdone l hl this]

theorem trunc_cached {fs₀ : Fs} (h : Trunc v S D A₀ ip i fs₀ R A fs) (hc : Cached v A₀ fs₀ ip i) :
    Cached v A fs ip i := by
  refine hc.edits h.edits ⟨hc.live.1, ?_⟩
  obtain ⟨f, hf⟩ := h.ino
  rw [hf]
  exact hc.live.2

theorem itrunc_direct_spec {fs₀ : Fs} (hok : Lenient ok) (hc : Cached v A₀ fs₀ ip i) (hbusy : fs₀.log.busy = true)
    (hinj : ∀ k l, slot A₀ i k ≠ 0 → slot A₀ i k = slot A₀ i l → k = l) (l : List Nat) (hl : ∀ k ∈ l, k < NDIRECT)
    (hn : l.Nodup) (h : Trunc v S D A₀ ip i fs₀ R A fs) (hR : ∀ k ∈ l, k ∈ R) :
    (itrunc.direct ip l fs).Holds G
      (fun _ fs' => ∃ A', Trunc v S D A₀ ip i fs₀ (R \ {k | k ∈ l}) A' fs') (fun w _ => ok w) := by
  induction l generalizing R A fs with
  | nil =>
      simp only [itrunc.direct, holds_pure]
      refine ⟨A, ?_⟩
      simpa using h
  | cons k rest ih =>
      have hc' := trunc_cached h hc
      have hdin := hc'.din h.rep
      have hk : k < NDIRECT := hl k (by simp)
      have hslot : slot A₀ i k = (A.ino i).addrs k := by
        rw [slot_direct A₀ i hk.le, h.left k hk.le (hR k (by simp))]
      have hset : R \ {j | j ∈ k :: rest} = (R \ {k}) \ {j | j ∈ rest} := by
        ext j
        simp only [Set.mem_sdiff, Set.mem_ofPred_eq, List.mem_cons, Set.mem_singleton_iff]
        tauto
      have hrest : ∀ j ∈ rest, j ∈ R \ {k} := by
        intro j hj
        refine ⟨hR j (by simp [hj]), fun he => ?_⟩
        exact (List.nodup_cons.1 hn).1 (Set.mem_singleton_iff.1 he ▸ hj)
      have hl' : ∀ j ∈ rest, j < NDIRECT := fun j hj => hl j (by simp [hj])
      have hn' := (List.nodup_cons.1 hn).2
      unfold itrunc.direct
      rw [holds_bind, holds_fetch, holds_bind, hdin]
      rw [hset]
      by_cases hz : (A.ino i).addrs k = 0
      · rw [if_neg (by simpa using hz), holds_pure]
        have hdone : ∀ l ≤ NDIRECT, l ∉ R \ {k} → (A.ino i).addrs l = 0 := by
          intro l hl hlR
          by_cases hlk : l = k
          · exact hlk ▸ hz
          · exact h.done l hl fun hm => hlR ⟨hm, hlk⟩
        exact ih hl' hn' { h with
          owns := trunc_slot_done h (hslot.trans hz)
          left := fun l hl hlR => h.left l hl hlR.1
          done := hdone } hrest
      · rw [if_pos hz, holds_bind]
        refine (trunc_bfree h hok hbusy hinj (hR k (by simp)) (by rw [hslot]; exact hz) hslot).mono ?_ fun _ _ => id
        rintro _ fs₁ ⟨hrep, howns, hkept⟩
        have hc₁ : Cached v (A.free ((A.ino i).addrs k)) fs₁ ip i := hc'.edits (edits_of_kept hkept ip) hc'.live
        have hdin₁ : (fs₁.icache ip).din = A.ino i := hc₁.din hrep
        rw [holds_setDin, hdin₁]
        exact ih hl' hn'
          (trunc_clear (A := A.free ((A.ino i).addrs k)) hc₁ hrep howns h.others h.data h.ino h.left h.done
          (h.edits.trans (edits_of_kept hkept ip))) hrest

theorem itrunc_indirect_spec {fs₀ : Fs} (hok : Lenient ok) (hbusy : fs₀.log.busy = true)
    (hinj : ∀ k l, slot A₀ i k ≠ 0 → slot A₀ i k = slot A₀ i l → k = l) (bp : Block) (l : List Nat)
    (hl : ∀ k ∈ l, slot A₀ i (NDIRECT + 1 + k) = bp.word (4 * k))
    (hn : l.Nodup) (h : Trunc v S D A₀ ip i fs₀ R A fs) (hR : ∀ k ∈ l, NDIRECT + 1 + k ∈ R) :
    (itrunc.indirect bp l fs).Holds G
      (fun _ fs' => ∃ A', Trunc v S D A₀ ip i fs₀ (R \ {k | k ∈ l.map (NDIRECT + 1 + ·)}) A' fs' ∧
        fs'.held = fs.held) (fun w _ => ok w) := by
  induction l generalizing R A fs with
  | nil =>
      simp only [itrunc.indirect, holds_pure]
      refine ⟨A, ?_, trivial⟩
      simpa using h
  | cons k rest ih =>
      have hslot := hl k (by simp)
      have hset : R \ {j | j ∈ (k :: rest).map (NDIRECT + 1 + ·)} =
          (R \ {NDIRECT + 1 + k}) \ {j | j ∈ rest.map (NDIRECT + 1 + ·)} := by
        ext j
        simp only [Set.mem_sdiff, Set.mem_ofPred_eq, List.map_cons, List.mem_cons, Set.mem_singleton_iff]
        tauto
      have hrest : ∀ j ∈ rest, NDIRECT + 1 + j ∈ R \ {NDIRECT + 1 + k} := by
        intro j hj
        refine ⟨hR j (by simp [hj]), fun he => ?_⟩
        have hjk : j = k := by
          have := Set.mem_singleton_iff.1 he
          omega
        exact (List.nodup_cons.1 hn).1 (hjk ▸ hj)
      have hl' : ∀ j ∈ rest, slot A₀ i (NDIRECT + 1 + j) = bp.word (4 * j) := fun j hj => hl j (by simp [hj])
      have hn' := (List.nodup_cons.1 hn).2
      have hbig : ∀ l ≤ NDIRECT, l ≠ NDIRECT + 1 + k := fun l hl => by omega
      unfold itrunc.indirect
      rw [holds_bind, hset]
      by_cases hz : bp.word (4 * k) = 0
      · rw [if_neg (by simpa using hz), holds_pure]
        exact ih hl' hn' { h with
          owns := trunc_slot_done h (hslot.trans hz)
          left := fun l hl hlR => h.left l hl hlR.1
          done := fun l hl hlR => h.done l hl fun hm => hlR ⟨hm, hbig l hl⟩ } hrest
      · rw [if_pos hz]
        refine (trunc_bfree h hok hbusy hinj (hR k (by simp)) (by rw [hslot]; exact hz) hslot).mono ?_ fun _ _ => id
        rintro _ fs₁ ⟨hrep, howns, hkept⟩
        have h₁ : Trunc v S D A₀ ip i fs₀ (R \ {NDIRECT + 1 + k}) (A.free (bp.word (4 * k))) fs₁ :=
          ⟨hrep, howns, h.others, h.data, h.ino, fun l hl hlR => h.left l hl hlR.1,
            fun l hl hlR => h.done l hl fun hm => hlR ⟨hm, hbig l hl⟩, h.edits.trans (edits_of_kept hkept ip)⟩
        refine (ih hl' hn' h₁ hrest).mono ?_ fun _ _ => id
        rintro _ fs' ⟨A', h', hheld⟩
        exact ⟨A', h', hheld.trans hkept.held⟩

theorem trunc_held {fs₀ : Fs} (h : Trunc v S D A₀ ip i fs₀ R A fs) (l : List Nat) :
    Trunc v S D A₀ ip i { fs₀ with held := l } R A { fs with held := l } :=
  { h with
    rep := ⟨by simpa using h.rep.log, h.rep.disk, h.rep.cache⟩
    edits := ⟨rfl, h.edits.busy, h.edits.input, h.edits.others, h.edits.self⟩ }

theorem trunc_congr {fs₀ : Fs} {R' : Set Nat} (h : Trunc v S D A₀ ip i fs₀ R A fs)
    (hR : ∀ k ∈ R, k ∉ R' → slot A₀ i k = 0) (hsub : R' ⊆ R) : Trunc v S D A₀ ip i fs₀ R' A fs := by
  have hset : blocksOf A₀ i R = blocksOf A₀ i R' := by
    ext c
    constructor
    · rintro ⟨hc, l, hl, rfl⟩
      by_cases hl' : l ∈ R'
      · exact ⟨hc, l, hl', rfl⟩
      · exact absurd (hR l hl hl') hc
    · rintro ⟨hc, l, hl, rfl⟩
      exact ⟨hc, l, hsub hl, rfl⟩
  refine { h with owns := hset ▸ h.owns, left := fun k hk hkR => h.left k hk (hsub hkR), done := ?_ }
  intro k hk hkR
  by_cases hk' : k ∈ R
  · rw [h.left k hk hk', ← slot_direct A₀ i hk]
    exact hR k hk' hkR
  · exact h.done k hk hk'

def truncated (d : Dinode) : Dinode := { d with size := 0, addrs := fun _ => 0 }

theorem itrunc_second_spec {fs₀ : Fs} (hok : Lenient ok) (hc : Cached v A₀ fs₀ ip i) (hbusy : fs₀.log.busy = true)
    (hinj : ∀ k l, slot A₀ i k ≠ 0 → slot A₀ i k = slot A₀ i l → k = l)
    (h : Trunc v S D A₀ ip i fs₀ {k | NDIRECT ≤ k} A fs) (hind : (A.ino i).addrs NDIRECT ≠ 0) :
    ((do
        let bp ← bread ((A.ino i).addrs NDIRECT)
        itrunc.indirect bp (List.range NINDIRECT)
        brelse ((A.ino i).addrs NDIRECT)
        bfree ((A.ino i).addrs NDIRECT)
        setDin ip fun d => { d with addrs := Function.update d.addrs NDIRECT 0 } : FsM Unit) fs).Holds G
      (fun _ fs' => ∃ A', Trunc v S D A₀ ip i fs₀ ∅ A' fs') (fun w _ => ok w) := by
  have hmem : NDIRECT ∈ {k | NDIRECT ≤ k} := le_refl NDIRECT
  have hslot : slot A₀ i NDIRECT = (A.ino i).addrs NDIRECT := by
    rw [slot_indirect, h.left NDIRECT le_rfl hmem]
  have hind₀ : (A₀.ino i).addrs NDIRECT ≠ 0 := by rwa [← h.left NDIRECT le_rfl hmem]
  obtain ⟨hlo, hhi, -⟩ := h.owns.loose (slot A₀ i NDIRECT) ⟨by rw [slot_indirect]; exact hind₀, NDIRECT, hmem, rfl⟩
  have hblk : fs.blk ((A.ino i).addrs NDIRECT) = A₀.data ((A₀.ino i).addrs NDIRECT) := by
    rw [← hslot, h.rep.blk_eq hlo hhi, h.data, slot_indirect]
  simp only [holds_bind]
  refine (bread_lenient hok _ fs).mono ?_ fun _ _ => id
  rintro _ _ ⟨rfl, rfl⟩
  have hl : ∀ k ∈ List.range NINDIRECT, slot A₀ i (NDIRECT + 1 + k) =
      (fs.blk ((A.ino i).addrs NDIRECT)).word (4 * k) := by
    intro k hk
    have hk' := List.mem_range.1 hk
    have hlt : ¬NDIRECT + NINDIRECT < NDIRECT + 1 + k := by omega
    unfold slot
    rw [if_neg (by omega), if_neg (by simp [hind₀, hlt]), hblk, show NDIRECT + 1 + k - (NDIRECT + 1) = k by omega]
  refine (itrunc_indirect_spec hok (by exact hbusy) hinj _ (List.range NINDIRECT) hl List.nodup_range
    (trunc_held h ((A.ino i).addrs NDIRECT :: fs.held)) fun k _ => ?_).mono ?_ fun _ _ => id
  · change NDIRECT ≤ NDIRECT + 1 + k
    omega
  rintro _ fs₁ ⟨A₁, h₁, hheld⟩
  rw [holds_brelse, hheld]
  simp only [List.erase_cons_head]
  have h₂ : Trunc v S D A₀ ip i fs₀ ({k | NDIRECT ≤ k} \ {k | k ∈ (List.range NINDIRECT).map (NDIRECT + 1 + ·)}) A₁
      { fs₁ with held := fs.held } := by
    have h₂ := trunc_held h₁ fs.held
    rw [h.edits.held] at h₂ ⊢
    exact h₂
  have hmem₁ : NDIRECT ∈ {k | NDIRECT ≤ k} \ {k | k ∈ (List.range NINDIRECT).map (NDIRECT + 1 + ·)} := by
    refine ⟨hmem, ?_⟩
    simp only [Set.mem_ofPred_eq, List.mem_map, not_exists, not_and]
    intro a _ ha
    omega
  refine (trunc_bfree h₂ hok hbusy hinj hmem₁ (by rw [slot_indirect]; exact hind₀) hslot).mono ?_ fun _ _ => id
  rintro _ fs₃ ⟨hrep, howns, hkept⟩
  have hc₂ := trunc_cached h₂ hc
  have hc₃ : Cached v (A₁.free ((A.ino i).addrs NDIRECT)) fs₃ ip i := hc₂.edits (edits_of_kept hkept ip) hc₂.live
  have hdin₃ : (fs₃.icache ip).din = A₁.ino i := hc₃.din hrep
  rw [holds_setDin, hdin₃]
  refine ⟨_, trunc_congr (trunc_clear (A := A₁.free ((A.ino i).addrs NDIRECT)) hc₃ hrep howns h₂.others h₂.data h₂.ino
    h₂.left h₂.done (h₂.edits.trans (edits_of_kept hkept ip))) ?_ (Set.empty_subset _)⟩
  -- Past the last entry of the indirect block every slot is empty.
  rintro k ⟨⟨hk, hk'⟩, hkn⟩ -
  have hkn' : k ≠ NDIRECT := hkn
  have hk₀ : NDIRECT ≤ k := hk
  have hbig : NDIRECT + NINDIRECT < k := by
    by_contra hle
    refine hk' (List.mem_map.2 ⟨k - (NDIRECT + 1), List.mem_range.2 ?_, ?_⟩) <;> omega
  unfold slot
  rw [if_neg (by omega), if_pos (.inr hbig)]

/-- A truncation gives back every block of the inode, and none but those. -/
theorem itrunc_spec (hok : Lenient ok) (h : Rep v A D fs) (ho : Owns v A S ∅) (hc : Cached v A fs ip i) (hS : i ∉ S)
    (hbusy : fs.log.busy = true) :
    (itrunc ip fs).Holds G
      (fun _ fs' => ∃ A', Rep v A' (D \ {i}) fs' ∧ Owns v A' (insert i S) ∅ ∧ A'.ino i = truncated (A.ino i) ∧
        (∀ j, j ≠ i → A'.ino j = A.ino j) ∧ A'.data = A.data ∧ Edits ip fs fs')
      (fun w _ => ok w) := by
  have hinj : ∀ k l, slot A i k ≠ 0 → slot A i k = slot A i l → k = l :=
    fun k l hk he => (ho.inj i i k l hc.live hS hc.live hS hk he).2
  have hstart : Trunc v S D A ip i fs Set.univ A fs := by
    refine ⟨⟨h.log, h.disk.mono (Set.subset_insert i D), h.cache⟩, ?_, fun _ _ => rfl, rfl, ⟨_, rfl⟩,
      fun _ _ _ => rfl, fun k _ hk => absurd (Set.mem_univ k) hk, edits_of_kept (Kept.refl fs) ip⟩
    have := owns_detach ho hc.live hS
    rwa [Set.empty_union] at this
  unfold itrunc
  rw [holds_bind]
  refine (itrunc_direct_spec hok hc hbusy hinj (List.range NDIRECT) (fun k hk => List.mem_range.1 hk) List.nodup_range
    hstart fun k _ => Set.mem_univ k).mono ?_ fun _ _ => id
  rintro _ fs₁ ⟨A₁, h₁⟩
  have hset : Set.univ \ {k | k ∈ List.range NDIRECT} = {k | NDIRECT ≤ k} := by
    ext k
    simp
  rw [hset] at h₁
  have hc₁ := trunc_cached h₁ hc
  have hdin₁ := hc₁.din h₁.rep
  rw [holds_bind, holds_fetch, hdin₁, holds_bind]
  -- Both branches leave no slot of the inode to be given back.
  have hall : ((if (A₁.ino i).addrs NDIRECT ≠ 0 then do
        let bp ← bread ((A₁.ino i).addrs NDIRECT)
        itrunc.indirect bp (List.range NINDIRECT)
        brelse ((A₁.ino i).addrs NDIRECT)
        bfree ((A₁.ino i).addrs NDIRECT)
        setDin ip fun d => { d with addrs := Function.update d.addrs NDIRECT 0 }
      else pure () : FsM Unit) fs₁).Holds G
      (fun _ fs' => ∃ A', Trunc v S D A ip i fs ∅ A' fs') (fun w _ => ok w) := by
    by_cases hz : (A₁.ino i).addrs NDIRECT = 0
    · rw [if_neg (by simpa using hz), holds_pure]
      refine ⟨A₁, trunc_congr h₁ ?_ (Set.empty_subset _)⟩
      intro k hk _
      have hz₀ : (A.ino i).addrs NDIRECT = 0 := by rw [← h₁.left NDIRECT le_rfl (le_refl NDIRECT), hz]
      have hk' : NDIRECT ≤ k := hk
      unfold slot
      split
      · rw [show k = NDIRECT by omega, hz₀]
      · simp [hz₀]
    · rw [if_pos hz]
      exact itrunc_second_spec hok hc hbusy hinj h₁ hz
  refine hall.mono ?_ fun _ _ => id
  rintro _ fs₂ ⟨A₂, h₂⟩
  have hc₂ := trunc_cached h₂ hc
  have hdin₂ := hc₂.din h₂.rep
  rw [holds_bind, holds_setDin, hdin₂]
  have hcleared : { A₂.ino i with size := 0 } = truncated (A.ino i) := by
    obtain ⟨f, hf⟩ := h₂.ino
    have hd := h₂.owns.din i hc₂.live.1
    have haddrs : (A₂.ino i).addrs = fun _ => 0 := by
      funext k
      rcases Nat.lt_or_ge NDIRECT k with hk | hk
      · exact hd.none k hk
      · exact h₂.done k hk (Set.notMem_empty k)
    rw [truncated, ← haddrs, hf]
  have hok' : DinodeOk (truncated (A.ino i)) := by
    have hd := ho.din i hc.live.1
    exact ⟨hd.type, hd.major, hd.minor, hd.nlink, Nat.two_pow_pos 32, fun _ => Nat.two_pow_pos 32, fun _ _ => rfl⟩
  rw [hcleared]
  have hrep₃ := rep_putDin h₂.rep hc₂ (truncated (A.ino i))
  rw [Set.insert_idem] at hrep₃
  have hfields := edits_putDin fs₂ ip (truncated (A.ino i))
  have hempty : blocksOf A i ∅ = ∅ := by
    ext c
    constructor
    · rintro ⟨-, k, hk, -⟩
      exact absurd hk (Set.notMem_empty k)
    · exact fun hc => absurd hc (Set.notMem_empty c)
  have howns := owns_setIno_apart h₂.owns (Set.mem_insert i S) hok'
  rw [hempty] at howns
  have hc₃ : Cached v (A₂.setIno i (truncated (A.ino i))) (putDin fs₂ ip (truncated (A.ino i))) ip i :=
    hc₂.edits hfields ⟨hc.live.1, by simpa [Image.setIno, truncated] using hc.live.2⟩
  refine (iupdate_spec hrep₃ howns.din hc.index hc₃.ref (by rw [hc₃.din hrep₃, hc₃.inum])
    ((h₂.edits.trans hfields).busy.trans hbusy) (.inl hok)).mono ?_ fun _ _ => id
  rintro _ fs₄ ⟨hrep₄, hkept⟩
  rw [hc₃.inum] at hrep₄
  refine ⟨_, ⟨hrep₄.log, hrep₄.disk.mono ?_, hrep₄.cache⟩, howns, Function.update_self .., ?_, h₂.data,
    (h₂.edits.trans hfields).trans (edits_of_kept hkept ip)⟩
  · rintro j ⟨rfl | hj, hji⟩
    · exact absurd rfl hji
    · exact ⟨hj, hji⟩
  · intro j hj
    rw [← h₂.others j hj]
    exact Function.update_of_ne hj _ _

end ArmXv6.Truncate
