import Abydos.Lib.Script
import Abydos.Lib.Tiling
import Abydos.Mmu.Slots

namespace Abydos.Mmu

open Abydos.Lib

structure Block (m : Mode) where
  level : Nat
  va : Addr
  pa : Addr
  level_le : level ≤ m.getMaxLevel
  va_dvd : 2 ^ m.shift level ∣ va.toNat
  pa_dvd : 2 ^ m.shift level ∣ pa.toNat

namespace Block

variable {m : Mode}

def start (b : Block m) : Nat := b.va.toNat

def len (b : Block m) : Nat := 2 ^ m.shift b.level

def fit (m : Mode) (room : Nat) (va pa : Addr) (L : Nat) : Option (Block m) :=
  if h : L ≤ m.getMaxLevel ∧ 2 ^ m.shift L ∣ va.toNat ∧ 2 ^ m.shift L ∣ pa.toNat ∧
      2 ^ m.shift L ≤ room then
    some ⟨L, va, pa, h.1, h.2.1, h.2.2.1⟩
  else none

theorem fit_eq_some {va pa : Addr} {b : Block m} : fit m room va pa L = some b →
    b.level = L ∧ b.va = va ∧ b.pa = pa ∧ 2 ^ m.shift L ≤ room := by
  unfold fit
  split
  next h =>
    intro hb
    cases hb
    exact ⟨rfl, rfl, rfl, h.2.2.2⟩
  next =>
    intro hb
    cases hb

theorem fit_map (room : Nat) (va pa : Addr) (L : Nat) :
    (fit m room va pa L).map (fun b => m.shift b.level) =
      if L ≤ m.getMaxLevel ∧ 2 ^ m.shift L ∣ va.toNat ∧ 2 ^ m.shift L ∣ pa.toNat ∧
        2 ^ m.shift L ≤ room then some (m.shift L) else none := by
  unfold fit
  split <;> rfl

end Block

namespace Mode

variable (m : Mode)

def pick (room : Nat) (va pa : Addr) : Option (Block m) :=
  (List.range (m.getMaxLevel + 1)).findSome? (Block.fit m room va pa)

def plan : Nat → Nat → Addr → Addr → List (Block m)
  | 0, _, _, _ => []
  | n + 1, room, va, pa =>
    match m.pick room va pa with
    | none => []
    | some b =>
      b :: plan n (room - b.len) (va + 1#64 <<< m.shift b.level) (pa + 1#64 <<< m.shift b.level)

variable {m} {va pa : Addr}

theorem pick_eq_some {b : Block m} (h : m.pick room va pa = some b) :
    b.va = va ∧ b.pa = pa ∧ b.len ≤ room ∧
      (2 ^ m.shift 0 ∣ va.toNat → 2 ^ m.shift 0 ∣ pa.toNat → 2 ^ m.shift 0 ≤ room →
        b.level = 0) := by
  unfold pick at h
  rw [List.range_succ_eq_map, List.findSome?_cons] at h
  cases h0 : Block.fit m room va pa 0 with
  | some b' =>
    rw [h0] at h
    cases h
    obtain ⟨hl, hva, hpa, hroom⟩ := Block.fit_eq_some h0
    refine ⟨hva, hpa, ?_, fun _ _ _ => hl⟩
    unfold Block.len
    rwa [hl]
  | none =>
    rw [h0] at h
    obtain ⟨L, -, hL⟩ := List.exists_of_findSome?_eq_some h
    obtain ⟨hl, hva, hpa, hroom⟩ := Block.fit_eq_some hL
    refine ⟨hva, hpa, ?_, ?_⟩
    · unfold Block.len
      rwa [hl]
    · intro hv hp hr
      unfold Block.fit at h0
      rw [dif_pos ⟨Nat.zero_le _, hv, hp, hr⟩] at h0
      cases h0

theorem shift_max (m : Mode) : m.shift m.getMaxLevel = 12 := by
  unfold shift
  rw [Nat.sub_self]

theorem pick_isSome (hv : 4096 ∣ va.toNat) (hp : 4096 ∣ pa.toNat) (hr : 4096 ≤ room) :
    ∃ b, m.pick room va pa = some b := by
  rw [← Option.isSome_iff_exists]
  unfold pick
  rw [List.findSome?_isSome_iff]
  refine ⟨m.getMaxLevel, List.mem_range.mpr (Nat.lt_succ_self _), ?_⟩
  have hfit := Block.fit_map (m := m) room va pa m.getMaxLevel
  rw [shift_max, if_pos ⟨Nat.le_refl _, hv, hp, hr⟩] at hfit
  rw [← Option.isSome_map, hfit]
  rfl

theorem pick_zero (va pa : Addr) : m.pick 0 va pa = none := by
  unfold pick
  rw [List.findSome?_eq_none_iff]
  intro L _
  unfold Block.fit
  rw [dif_neg]
  rintro ⟨-, -, -, h⟩
  exact Nat.not_lt.mpr h (Nat.two_pow_pos _)

theorem fits_iff (hk : k ≤ 63) (vc pc rest : Addr) :
    (vc &&& BitVec.ofNat 64 (2 ^ k - 1) = 0#64 ∧ pc &&& BitVec.ofNat 64 (2 ^ k - 1) = 0#64 ∧
      rest ≥ 1#64 <<< k) ↔ 2 ^ k ∣ vc.toNat ∧ 2 ^ k ∣ pc.toNat ∧ 2 ^ k ≤ rest.toNat := by
  have hlt : 2 ^ k < 2 ^ 64 := Nat.pow_lt_pow_right (by decide) (by omega)
  rw [Word.and_low_eq_zero _ (by omega), Word.and_low_eq_zero _ (by omega), ge_iff_le,
    BitVec.le_def, BitVec.toNat_shiftLeft, Nat.shiftLeft_eq]
  rw [show (1#64).toNat = 1 from rfl, Nat.one_mul, Nat.mod_eq_of_lt hlt]

theorem pick_map (levels : List Nat) (room : Nat) (va pa : Addr) (L : Nat) :
    ((L :: levels).findSome? (Block.fit m room va pa)).map (fun b => m.shift b.level) =
      if L ≤ m.getMaxLevel ∧ 2 ^ m.shift L ∣ va.toNat ∧ 2 ^ m.shift L ∣ pa.toNat ∧
        2 ^ m.shift L ≤ room then some (m.shift L)
      else (levels.findSome? (Block.fit m room va pa)).map (fun b => m.shift b.level) := by
  have hfit := Block.fit_map (m := m) room va pa L
  rw [List.findSome?_cons]
  cases h : Block.fit m room va pa L with
  | none =>
    rw [h, Option.map_none] at hfit
    rw [if_neg]
    intro hc
    rw [if_pos hc] at hfit
    cases hfit
  | some b =>
    rw [h, Option.map_some] at hfit
    split at hfit
    next hc => rw [if_pos hc, ← hfit, Option.map_some]
    next => cases hfit

theorem mapSplit_eq (m : Mode) (v s vc pc : Addr) :
    m.mapSplit v s vc pc =
      (m.pick (s - (vc - v)).toNat vc pc).map fun b => m.shift b.level := by
  have h48 := fits_iff (k := 48) (by decide) vc pc (s - (vc - v))
  have h39 := fits_iff (k := 39) (by decide) vc pc (s - (vc - v))
  have h30 := fits_iff (k := 30) (by decide) vc pc (s - (vc - v))
  have h21 := fits_iff (k := 21) (by decide) vc pc (s - (vc - v))
  have h12 := fits_iff (k := 12) (by decide) vc pc (s - (vc - v))
  have hlevel {L : Nat} {c : Prop} (h : L ≤ m.getMaxLevel) : c ↔ L ≤ m.getMaxLevel ∧ c :=
    (and_iff_right h).symm
  have hsz {n : Nat} {c : Prop} (h : m.sz ≥ n) : m.sz ≥ n ∧ c ↔ c := and_iff_right h
  unfold mapSplit pick
  cases m with
  | sv39 =>
    rw [show List.range (getMaxLevel .sv39 + 1) = [0, 1, 2] from rfl, pick_map, pick_map, pick_map,
      if_neg (fun h => absurd h.1 (by decide)), if_neg (fun h => absurd h.1 (by decide))]
    exact if_congr (h30.trans (hlevel (by decide))) rfl <|
      if_congr (h21.trans (hlevel (by decide))) rfl <|
      if_congr (h12.trans (hlevel (by decide))) rfl rfl
  | sv48 =>
    rw [show List.range (getMaxLevel .sv48 + 1) = [0, 1, 2, 3] from rfl, pick_map, pick_map,
      pick_map, pick_map, if_neg (fun h => absurd h.1 (by decide))]
    exact if_congr (((hsz (by decide)).trans h39).trans (hlevel (by decide))) rfl <|
      if_congr (h30.trans (hlevel (by decide))) rfl <|
      if_congr (h21.trans (hlevel (by decide))) rfl <|
      if_congr (h12.trans (hlevel (by decide))) rfl rfl
  | sv57 =>
    rw [show List.range (getMaxLevel .sv57 + 1) = [0, 1, 2, 3, 4] from rfl, pick_map, pick_map,
      pick_map, pick_map, pick_map]
    exact if_congr (((hsz (by decide)).trans h48).trans (hlevel (by decide))) rfl <|
      if_congr (((hsz (by decide)).trans h39).trans (hlevel (by decide))) rfl <|
      if_congr (h30.trans (hlevel (by decide))) rfl <|
      if_congr (h21.trans (hlevel (by decide))) rfl <|
      if_congr (h12.trans (hlevel (by decide))) rfl rfl

theorem unmapSplit_eq (m : Mode) (v s vc : Addr) : m.unmapSplit v s vc = m.mapSplit v s vc vc := by
  unfold unmapSplit mapSplit
  simp only [and_self_left]

theorem shift_lt (hl : L ≤ m.getMaxLevel) : m.shift L ≤ 48 := by
  unfold shift
  cases m <;> simp only [getMaxLevel] <;> omega

theorem one_shiftLeft (b : Block m) : (1#64 <<< m.shift b.level).toNat = b.len := by
  have hlt : 2 ^ m.shift b.level < 2 ^ 64 :=
    Nat.pow_lt_pow_right (by decide) (by have := shift_lt b.level_le; omega)
  rw [BitVec.toNat_shiftLeft, Nat.shiftLeft_eq, show (1#64).toNat = 1 from rfl, Nat.one_mul,
    Nat.mod_eq_of_lt hlt]
  rfl

theorem page_dvd_len (b : Block m) : 4096 ∣ b.len :=
  Nat.pow_dvd_pow 2 (Nat.le_add_right 12 _)

theorem page_le_len (b : Block m) : 4096 ≤ b.len :=
  Nat.le_of_dvd (Nat.two_pow_pos _) (page_dvd_len b)

theorem add_toNat (b : Block m) (h : va.toNat + b.len < 2 ^ 64) :
    (va + 1#64 <<< m.shift b.level).toNat = va.toNat + b.len := by
  rw [BitVec.toNat_add, one_shiftLeft, Nat.mod_eq_of_lt h]

theorem add_dvd (b : Block m) (h : 4096 ∣ va.toNat) :
    4096 ∣ (va + 1#64 <<< m.shift b.level).toNat := by
  have := page_dvd_len b
  rw [BitVec.toNat_add, one_shiftLeft]
  omega

theorem plan_tiles (hv : 4096 ∣ va.toNat) (hp : 4096 ∣ pa.toNat) (hr : 4096 ∣ room)
    (hn : room / 4096 ≤ n) (hend : va.toNat + room < 2 ^ 64) :
    Tiles Block.start Block.len va.toNat (va.toNat + room) (m.plan n room va pa) := by
  induction n generalizing room va pa with
  | zero =>
    have h0 : room = 0 := by omega
    subst h0
    exact .nil
  | succ n ih =>
    unfold plan
    by_cases h0 : room = 0
    · subst h0
      rw [pick_zero]
      exact .nil
    · obtain ⟨b, hb⟩ := pick_isSome (m := m) hv hp (by omega : 4096 ≤ room)
      obtain ⟨rfl, -, hlen, -⟩ := pick_eq_some hb
      rw [hb]
      have hpage := page_dvd_len b
      have hle := page_le_len b
      have hnext := add_toNat b (by omega : b.va.toNat + b.len < 2 ^ 64)
      have hrest := ih (add_dvd b hv) (add_dvd b hp) (show 4096 ∣ room - b.len by omega) (by omega)
        (by omega)
      rw [hnext, show b.va.toNat + b.len + (room - b.len) = b.va.toNat + room by omega] at hrest
      exact .cons hrest

theorem plan_offset {b : Block m} (h : b ∈ m.plan n room va pa) : b.pa - b.va = pa - va := by
  induction n generalizing room va pa with
  | zero => cases h
  | succ n ih =>
    unfold plan at h
    cases hp : m.pick room va pa with
    | none =>
      rw [hp] at h
      cases h
    | some b' =>
      rw [hp] at h
      obtain ⟨rfl, rfl, -⟩ := pick_eq_some hp
      rcases List.mem_cons.mp h with rfl | h
      · rfl
      · rw [ih h]
        bv_omega

theorem plan_page (hv : 4096 ∣ va.toNat) (hp : 4096 ∣ pa.toNat) :
    ∃ b : Block m, b.va = va ∧ m.plan 1 4096 va pa = [b] := by
  obtain ⟨b, hb⟩ := pick_isSome (m := m) hv hp (Nat.le_refl 4096)
  refine ⟨b, (pick_eq_some hb).1, ?_⟩
  unfold plan
  rw [hb]
  rfl

theorem plan_root (hv : 2 ^ m.shift 0 ∣ va.toNat) (hp : 2 ^ m.shift 0 ∣ pa.toNat)
    (hr : 2 ^ m.shift 0 ∣ room) {b : Block m} (h : b ∈ m.plan n room va pa) : b.level = 0 := by
  induction n generalizing room va pa with
  | zero => cases h
  | succ n ih =>
    unfold plan at h
    cases hb : m.pick room va pa with
    | none =>
      rw [hb] at h
      cases h
    | some b' =>
      obtain ⟨rfl, rfl, hlen, hroot⟩ := pick_eq_some hb
      have hpos : 0 < room := Nat.lt_of_lt_of_le (Nat.two_pow_pos _) hlen
      have h0 := hroot hv hp (Nat.le_of_dvd hpos hr)
      have hlen0 : b'.len = 2 ^ m.shift 0 := by
        unfold Block.len
        rw [h0]
      have hdvd : 2 ^ m.shift 0 ∣ 2 ^ 64 :=
        Nat.pow_dvd_pow 2 (Nat.le_trans (shift_lt (Nat.zero_le _)) (by decide))
      have hadd (a : Addr) (ha : 2 ^ m.shift 0 ∣ a.toNat) :
          2 ^ m.shift 0 ∣ (a + 1#64 <<< m.shift b'.level).toNat := by
        rw [BitVec.toNat_add, one_shiftLeft, hlen0]
        exact (Nat.dvd_mod_iff hdvd).mpr (Nat.dvd_add ha (Nat.dvd_refl _))
      rw [hb] at h
      rcases List.mem_cons.mp h with rfl | h
      · exact h0
      · refine ih (hadd _ hv) (hadd _ hp) ?_ h
        rw [hlen0]
        exact Nat.dvd_sub hr (Nat.dvd_refl _)

theorem pick_cases (hv : 4096 ∣ va.toNat) (hp : 4096 ∣ pa.toNat) (hr : 4096 ∣ room) :
    room = 0 ∨ (0 < room ∧ ∃ b, m.pick room va pa = some b) := by
  rcases Nat.eq_zero_or_pos room with h0 | hpos
  · exact Or.inl h0
  · exact Or.inr ⟨hpos, pick_isSome hv hp (Nat.le_of_dvd hpos hr)⟩

/-- The loops of `map` and `unmap` with the block step left open. -/
def loop (m : Mode) (op : Nat → Addr → Addr → MmuM Int) (v s : Addr) :
    Nat → Addr → Addr → Int → MmuM Int
  | 0, _, _, _ => throw .diverges
  | n + 1, vc, pc, rc =>
    if vc < v + s then
      if rc ≠ 0 then
        return rc
      else
        match m.mapSplit v s vc pc with
        | some blocksz => do
          let rc ← op blocksz vc pc
          loop m op v s n (vc + 1#64 <<< blocksz) (pc + 1#64 <<< blocksz) rc
        | none => return K_EINVALID_ADDR
    else
      return rc

theorem mapLoop_eq_loop (m : Mode) (v s : Addr) (prot : BitVec 32) (n : Nat) (vc pc : Addr)
    (rc : Int) : m.mapLoop v s prot n vc pc rc =
      m.loop (fun blocksz va pa => m.mapBlock blocksz va pa prot) v s n vc pc rc := by
  induction n generalizing vc pc rc with
  | zero => rfl
  | succ n ih =>
    unfold mapLoop loop
    cases m.mapSplit v s vc pc with
    | none => rfl
    | some blocksz => simp only [ih]

theorem unmapLoop_eq_loop (m : Mode) (v s : Addr) (n : Nat) (vc : Addr) (rc : Int) :
    m.unmapLoop v s n vc rc =
      m.loop (fun blocksz va _ => m.unmapBlock blocksz va) v s n vc vc rc := by
  induction n generalizing vc rc with
  | zero => rfl
  | succ n ih =>
    unfold unmapLoop loop
    rw [unmapSplit_eq]
    cases m.mapSplit v s vc vc with
    | none => rfl
    | some blocksz => simp only [ih]

section Loop

variable {op : Nat → Addr → Addr → MmuM Int} {v s vc pc : Addr}

theorem loop_rc {rc : Int} (hrc : rc ≠ 0) (n : Nat) :
    m.loop op v s (n + 1) vc pc rc = return rc := by
  unfold loop
  rw [if_pos hrc, ite_self]

theorem loop_eq (hv : 4096 ∣ vc.toNat) (hp : 4096 ∣ pc.toNat) (hr : 4096 ∣ room)
    (hn : room / 4096 ≤ n) (hle : v.toNat ≤ vc.toNat) (hlt : v.toNat + s.toNat < 2 ^ 64)
    (hroom : vc.toNat + room = v.toNat + s.toNat) :
    m.loop op v s (n + 1) vc pc 0 =
      Script.run (fun b => op (m.shift b.level) b.va b.pa) (m.plan n room vc pc) := by
  induction n generalizing room vc pc with
  | zero =>
    unfold loop
    rw [if_neg]
    · rfl
    · rw [BitVec.lt_def, BitVec.toNat_add, Nat.mod_eq_of_lt hlt]
      omega
  | succ n ih =>
    have hrest : (s - (vc - v)).toNat = room := by
      rw [BitVec.toNat_sub, BitVec.toNat_sub]
      omega
    have hcond : vc < v + s ↔ 0 < room := by
      rw [BitVec.lt_def, BitVec.toNat_add, Nat.mod_eq_of_lt hlt]
      omega
    unfold loop plan
    rcases pick_cases (m := m) hv hp hr with rfl | ⟨hpos, b, hb⟩
    · rw [if_neg (fun h => Nat.lt_irrefl 0 (hcond.mp h)), pick_zero]
      rfl
    · rw [if_pos (hcond.mpr hpos), if_neg (fun h => h rfl), mapSplit_eq, hrest, hb]
      obtain ⟨rfl, rfl, hlen, -⟩ := pick_eq_some hb
      have hpage := page_dvd_len b
      have hpos' := page_le_len b
      have hnext := add_toNat b (by omega : b.va.toNat + b.len < 2 ^ 64)
      change (do
        let rc ← op (m.shift b.level) b.va b.pa
        m.loop op v s (n + 1) (b.va + 1#64 <<< m.shift b.level)
          (b.pa + 1#64 <<< m.shift b.level) rc) = _
      unfold Script.run
      congr 1
      funext rc
      by_cases hrc : rc = 0
      · subst hrc
        rw [if_neg (fun h => h rfl)]
        exact ih (add_dvd b hv) (add_dvd b hp) (show 4096 ∣ room - b.len by omega) (by omega)
          (by omega) (by omega)
      · rw [if_pos hrc, loop_rc hrc]

end Loop

def mapOp (m : Mode) (prot : BitVec 32) (b : Block m) : MmuM Int :=
  m.mapBlock (m.shift b.level) b.va b.pa prot

def unmapOp (m : Mode) (b : Block m) : MmuM Int := m.unmapBlock (m.shift b.level) b.va

end Mode

end Abydos.Mmu
