import Abydos.Mmu.Calls

namespace Abydos.Mmu

open Abydos.Lib

variable {m : Mode} {v p s va pa : Addr} {b : Block m}

/-- The block is the largest that begins where it does, in both address spaces, and ends at `e` at
the latest. -/
def Block.Largest (b : Block m) (e : Nat) : Prop :=
  ∀ L ≤ m.getMaxLevel, 2 ^ m.shift L ∣ b.va.toNat → 2 ^ m.shift L ∣ b.pa.toNat →
    b.start + 2 ^ m.shift L ≤ e → 2 ^ m.shift L ≤ b.len

theorem Mode.shift_anti (h : L ≤ L') : m.shift L' ≤ m.shift L := by
  unfold Mode.shift
  omega

theorem Mode.pick_largest (h : m.pick room va pa = some b) :
    b.Largest (va.toNat + room) := by
  intro L hL hv hp hr
  obtain ⟨rfl, rfl, -⟩ := pick_eq_some h
  obtain ⟨before, l, after, hrange, hfit, hnone⟩ := List.findSome?_eq_some_iff.mp h
  obtain ⟨rfl, -⟩ := Block.fit_eq_some hfit
  have hmem : L ∈ before ++ b.level :: after := hrange ▸ List.mem_range.mpr (Nat.lt_succ_of_le hL)
  have hsorted : (before ++ b.level :: after).Pairwise (· < ·) := hrange ▸ List.pairwise_lt_range
  have hle : b.level ≤ L := by
    rcases List.mem_append.mp hmem with hbefore | hrest
    · -- the loop has not found room for a larger block
      have h0 := hnone L hbefore
      unfold Block.start at hr
      unfold Block.fit at h0
      rw [dif_pos ⟨hL, hv, hp, by omega⟩] at h0
      cases h0
    · rcases List.mem_cons.mp hrest with rfl | hafter
      · exact Nat.le_refl _
      · have hcons := (List.pairwise_append.mp hsorted).2.1
        exact Nat.le_of_lt ((List.pairwise_cons.mp hcons).1 L hafter)
  exact Nat.pow_le_pow_right (by decide) (shift_anti hle)

theorem Mode.plan_largest (hend : va.toNat + room < 2 ^ 64) (hb : b ∈ m.plan n room va pa) :
    b.Largest (va.toNat + room) := by
  induction n generalizing room va pa with
  | zero => cases hb
  | succ n ih =>
    unfold plan at hb
    cases hpick : m.pick room va pa with
    | none =>
      rw [hpick] at hb
      cases hb
    | some b' =>
      rw [hpick] at hb
      rcases List.mem_cons.mp hb with rfl | hb
      · exact pick_largest hpick
      · obtain ⟨rfl, -, hlen, -⟩ := pick_eq_some hpick
        have hnext := add_toNat b' (show b'.va.toNat + b'.len < 2 ^ 64 by omega)
        have hrest := ih (by omega) hb
        rwa [hnext, show b'.va.toNat + b'.len + (room - b'.len) = b'.va.toNat + room by omega]
          at hrest

theorem Mode.plan_same (hb : b ∈ m.plan n room va va) : b.pa = b.va := by
  have hoff := plan_offset hb
  rw [BitVec.sub_self] at hoff
  exact BitVec.sub_eq_iff_eq_add.mp hoff |>.trans (BitVec.zero_add _)

theorem Block.len_dvd (b b' : Block m) : b.len ∣ b'.len ∨ b'.len ∣ b.len :=
  (Nat.le_total (m.shift b.level) (m.shift b'.level)).imp (Nat.pow_dvd_pow 2) (Nat.pow_dvd_pow 2)

/-- The loop over the range, with any block step, is the step on these blocks until one fails; if
none does, it ends with zero. -/
def Mode.Runs (m : Mode) (v s q : Addr) (bs : List (Block m)) : Prop :=
  ∀ op : Nat → Addr → Addr → MmuM Int,
    m.loop op v s (s.toNat / 4096 + 1) v q 0 =
        Script.run (fun b => op (m.shift b.level) b.va b.pa) bs ∧
      ∀ σ, Script.Guarded (fun b => op (m.shift b.level) b.va b.pa)
          (Script.Succeeds fun b => op (m.shift b.level) b.va b.pa) bs σ →
        ∃ σ', (m.loop op v s (s.toNat / 4096 + 1) v q 0).exec σ = (.ok 0, σ')

theorem Mode.runs_plan (hv : 4096 ∣ v.toNat) (hp : 4096 ∣ p.toNat) (hs : 4096 ∣ s.toNat)
    (hve : v.toNat + s.toNat < 2 ^ 64) :
    m.Runs v s p (m.plan (s.toNat / 4096) s.toNat v p) := by
  intro op
  have heq : m.loop op v s (s.toNat / 4096 + 1) v p 0 = _ :=
    loop_eq hv hp hs (Nat.le_refl _) (Nat.le_refl v.toNat) hve rfl
  refine ⟨heq, fun σ hg => ?_⟩
  rw [heq]
  exact Script.exec_run_succeeds hg

/-- `map` and `unmap` cut a range into consecutive blocks that are aligned to their sizes and of
which each is the largest possible.  What `unmap` takes for one block is a union of blocks of
`map`. -/
theorem blocks_exact (hv : 4096 ∣ v.toNat) (hp : 4096 ∣ p.toNat) (hs : 4096 ∣ s.toNat)
    (hve : v.toNat + s.toNat < 2 ^ 64) (hpe : p.toNat + s.toNat < 2 ^ 64) :
    ∃ bs us : List (Block m),
      (∀ prot, Accepted prot → m.map v p s prot =
        m.loop (fun k va pa => m.mapBlock k va pa prot) v s (s.toNat / 4096 + 1) v p 0) ∧
      m.unmap v s = m.loop (fun k va _ => m.unmapBlock k va) v s (s.toNat / 4096 + 1) v v 0 ∧
      m.Runs v s p bs ∧ m.Runs v s v us ∧
      Tiles Block.start Block.len v.toNat (v.toNat + s.toNat) bs ∧
      Tiles Block.start Block.len v.toNat (v.toNat + s.toNat) us ∧
      (∀ b ∈ bs, b.pa - b.va = p - v) ∧ (∀ u ∈ us, u.pa = u.va) ∧
      (∀ b ∈ bs ++ us, b.len ∣ b.va.toNat ∧ b.len ∣ b.pa.toNat ∧
        m.calcLevel (m.shift b.level) = b.level ∧ b.level ≤ m.getMaxLevel ∧
        b.Largest (v.toNat + s.toNat)) ∧
      ∀ u ∈ us, ∀ y, (u.start ≤ y ∧ y < u.start + u.len) ↔
        ∃ b ∈ bs, (u.start ≤ b.start ∧ b.start + b.len ≤ u.start + u.len) ∧
          b.start ≤ y ∧ y < b.start + b.len := by
  have htiles (q : Addr) (hq : 4096 ∣ q.toNat) :=
    Mode.plan_tiles (m := m) hv hq hs (Nat.le_refl _) hve
  have hlargest (q : Addr) (b : Block m) (hb : b ∈ m.plan (s.toNat / 4096) s.toNat v q) :=
    Mode.plan_largest hve hb
  have hruns := Mode.runs_plan (m := m) hv hp hs hve
  have hruns' := Mode.runs_plan (m := m) hv hv hs hve
  refine ⟨m.plan (s.toNat / 4096) s.toNat v p, m.plan (s.toNat / 4096) s.toNat v v,
    fun prot hprot => ?_, ?_, hruns, hruns', htiles p hp, htiles v hv,
    fun b hb => Mode.plan_offset hb, fun u hu => Mode.plan_same hu, fun b hb => ?_,
    fun u hu y => ?_⟩
  · exact (Mode.map_eq ⟨hv, hp, hs, hve, hpe, hprot⟩).trans
      (hruns fun k va pa => m.mapBlock k va pa prot).1.symm
  · exact (Mode.unmap_eq ⟨hv, hs, hve⟩).trans (hruns' fun k va _ => m.unmapBlock k va).1.symm
  · refine ⟨b.va_dvd, b.pa_dvd, Mode.calcLevel_shift b.level_le, b.level_le, ?_⟩
    exact (List.mem_append.mp hb).elim (hlargest p b) (hlargest v b)
  · refine (htiles p hp).union_of_greedy (htiles v hv) (fun b _ => b.va_dvd) (fun b _ => b.va_dvd)
      (fun b _ u _ => b.len_dvd u) (fun b hb u hu hstart => ?_) hu y
    have hva : b.va.toNat = u.va.toNat := hstart
    have hend := (htiles p hp).end_le hb
    have hb' : 2 ^ m.shift b.level ∣ u.va.toNat := hva ▸ b.va_dvd
    refine hlargest v u hu b.level b.level_le hb' ?_ ?_
    · rw [Mode.plan_same hu]
      exact hb'
    · rw [← hstart]
      exact hend

theorem blocks_exact_gigabyte : ∃ bs us : List (Block .sv39),
    Tiles Block.start Block.len 0x40000000 0x80000000 bs ∧
    (∀ b ∈ bs, b.len ∣ b.pa.toNat ∧ b.pa - b.va = 0x1000 - 0x40000000) ∧
    Tiles Block.start Block.len 0x40000000 0x80000000 us ∧
    ∃ u ∈ us, u.start = 0x40000000 ∧ u.len = 0x40000000 := by
  obtain ⟨bs, us, -, -, -, -, hbs, hus, hoff, hsame, hall, -⟩ := blocks_exact (m := .sv39)
    (v := 0x40000000) (p := 0x1000) (s := 0x40000000) (by decide) (by decide) (by decide)
    (by decide) (by decide)
  obtain ⟨u, hu, hle, -⟩ := hus.mem_iff.mp (show 0x40000000 ≤ 0x40000000 ∧ 0x40000000 < _ by decide)
  have hstart : u.start = 0x40000000 := Nat.le_antisymm hle (hus.start_ge hu)
  have hva : u.va.toNat = 0x40000000 := hstart
  have hend := hus.end_le hu
  have hlen : 2 ^ 30 ≤ u.len := by
    refine (hall u (List.mem_append_right _ hu)).2.2.2.2 0 (Nat.zero_le _) ?_ ?_ ?_
    · rw [hva]
      decide
    · rw [hsame u hu, hva]
      decide
    · rw [hstart]
      decide
  refine ⟨bs, us, hbs, fun b hb => ⟨?_, hoff b hb⟩, hus, u, hu, hstart, ?_⟩
  · exact (hall b (List.mem_append_left _ hb)).2.1
  · change _ ≤ 0x40000000 + 0x40000000 at hend
    omega

end Abydos.Mmu
