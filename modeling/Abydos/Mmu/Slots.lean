import Mathlib.Tactic.IntervalCases
import Abydos.Lib.Radix
import Abydos.Mmu.Walk

namespace Abydos.Mmu

open Abydos.Lib Abydos.Lib.Radix

namespace Mode

variable (m : Mode)

def shift (l : Nat) : Nat := 12 + 9 * (m.getMaxLevel - l)

def idx (l x : Nat) : Nat := x / 2 ^ m.shift l

def low (va : Addr) : Nat := va.toNat % 2 ^ m.sz

theorem sz_eq : m.sz = m.shift 0 + 9 := by cases m <;> rfl

theorem shift_succ (h : l < m.getMaxLevel) : m.shift l = m.shift (l + 1) + 9 := by
  unfold shift
  omega

theorem idx_div (h : l < m.getMaxLevel) (x : Nat) : m.idx (l + 1) x / 512 = m.idx l x := by
  unfold idx
  rw [Nat.div_div_eq_div_mul, m.shift_succ h, Nat.pow_add]

theorem idx_zero_div (h : x < 2 ^ m.sz) : m.idx 0 x / 512 = 0 := by
  unfold idx
  rw [Nat.div_div_eq_div_mul]
  apply Nat.div_eq_of_lt
  rwa [m.sz_eq, Nat.pow_add] at h

theorem low_lt (va : Addr) : m.low va < 2 ^ m.sz := Nat.mod_lt _ (Nat.two_pow_pos _)

theorem getVPN_eq (h : l ≤ m.getMaxLevel) (va : Addr) :
    m.getVPN l va = va.extractLsb' (m.shift l) 9 := by
  cases m with
  | sv39 => change l ≤ 2 at h; interval_cases l <;> rfl
  | sv48 => change l ≤ 3 at h; interval_cases l <;> rfl
  | sv57 => change l ≤ 4 at h; interval_cases l <;> rfl

theorem idx_low_mod (l : Nat) (va : Addr) :
    m.idx l (m.low va) % 512 = va.toNat / 2 ^ m.shift l % 512 := by
  obtain ⟨n, hn⟩ : ∃ n, m.sz = m.shift l + (9 + n) := by
    refine ⟨m.shift 0 - m.shift l, ?_⟩
    rw [m.sz_eq]
    unfold shift
    omega
  unfold idx low
  rw [hn, Nat.pow_add, Nat.mod_mul_right_div_self]
  exact Nat.mod_mod_of_dvd _ (Nat.pow_dvd_pow 2 (Nat.le_add_right 9 n))

theorem getVPN_toNat (h : l ≤ m.getMaxLevel) (va : Addr) :
    (m.getVPN l va).toNat = m.idx l (m.low va) % 512 := by
  rw [m.getVPN_eq h, Word.toNat_extract, idx_low_mod]
  rfl

end Mode

namespace Pte

def next (e : Pte) : Option Nat :=
  if e.v && !e.r && !e.w && !e.x then some (e.frame * 4096) else none

def kind (thead : Bool) (e : Pte) : Kind := Hw.kind thead e.word

theorem kind_eq (thead : Bool) (e : Pte) :
    e.kind thead =
      if !e.v || (!e.r && e.w) then .fault
      else if e.reserved ≠ 0 ∧ thead = false then .fault
      else if e.r || e.x then .leaf
      else if e.u || e.a || e.d then .fault
      else .pointer := by
  obtain ⟨hv, hr, hw, hx, hu, -, ha, hd⟩ := e.getLsbD_word
  unfold kind Hw.kind
  rw [hv, hr, hw, hx, hu, ha, hd, word_reserved]

variable {e : Pte} {thead : Bool}

theorem kind_eq_pointer : e.kind thead = .pointer ↔
    e.v = true ∧ e.r = false ∧ e.w = false ∧ e.x = false ∧ e.u = false ∧ e.a = false ∧
      e.d = false ∧ (e.reserved = 0 ∨ thead = true) := by
  rw [kind_eq]
  grind

theorem kind_eq_leaf : e.kind thead = .leaf ↔
    e.v = true ∧ (e.r = true ∨ e.x = true) ∧ (e.w = true → e.r = true) ∧
      (e.reserved = 0 ∨ thead = true) := by
  rw [kind_eq]
  grind

theorem kind_of_not_v (h : e.v = false) : e.kind thead = .fault := by
  rw [kind_eq, h]
  rfl

theorem next_eq_some : e.next = some p ↔
    e.v = true ∧ e.r = false ∧ e.w = false ∧ e.x = false ∧ e.frame * 4096 = p := by
  unfold next
  grind

theorem next_of_pointer (h : e.kind thead = .pointer) : e.next = some (e.frame * 4096) := by
  obtain ⟨hv, hr, hw, hx, -⟩ := kind_eq_pointer.mp h
  exact next_eq_some.mpr ⟨hv, hr, hw, hx, rfl⟩

end Pte

def layout : Layout Pte where
  fanout := 512
  stride := 8
  next := Pte.next
  fanout_pos := by decide
  stride_pos := by decide

abbrev Slots := Nat → Nat → Option Pte

namespace State

def root (σ : State) : Nat := (σ.ptes - K_VADDR_BASE).toNat

def slots (σ : State) : Slots := layout.slot σ.mem σ.root

end State

namespace Slots

def g (s : Slots) (l k : Nat) : Bool := ((s l k).map Pte.g).getD false

variable (m : Mode) (thead : Bool)

def walk (s : Slots) (va : Addr) : Nat → Bool → Option Translation
  | i, g =>
    match s (m.getMaxLevel - i) (m.idx (m.getMaxLevel - i) (m.low va)) with
    | none => none
    | some e =>
      match e.kind thead with
      | .fault => none
      | .leaf => Hw.leaf va i g e.word
      | .pointer =>
        match i with
        | 0 => none
        | i + 1 => walk s va i (g || e.g)

theorem walk_congr {s s' : Slots} {va : Addr}
    (h : ∀ l ≤ m.getMaxLevel, s' l (m.idx l (m.low va)) = s l (m.idx l (m.low va)))
    (i : Nat) (g : Bool) : walk m thead s' va i g = walk m thead s va i g := by
  induction i generalizing g with
  | zero =>
    unfold walk
    rw [h _ (Nat.sub_le _ _)]
  | succ i ih =>
    unfold walk
    rw [h _ (Nat.sub_le _ _)]
    simp only [ih]

variable (s : Slots) (va : Addr)

/-- The pointers above depth `l` on the path of `va`, none with a reserved bit set. -/
def Path (l : Nat) : Prop :=
  ∀ j < l, ∃ e, s j (m.idx j (m.low va)) = some e ∧ e.kind thead = .pointer

def gAbove : Nat → Bool
  | 0 => false
  | l + 1 => gAbove l || s.g l (m.idx l (m.low va))

variable {m thead s va} {e : Pte}

theorem walk_depth (hl : l ≤ m.getMaxLevel) (hs : s l (m.idx l (m.low va)) = some e) (g : Bool) :
    walk m thead s va (m.getMaxLevel - l) g =
      match e.kind thead with
      | .fault => none
      | .leaf => Hw.leaf va (m.getMaxLevel - l) g e.word
      | .pointer =>
        if l = m.getMaxLevel then none
        else walk m thead s va (m.getMaxLevel - (l + 1)) (g || e.g) := by
  obtain ⟨i, hi⟩ : ∃ i, m.getMaxLevel - l = i := ⟨_, rfl⟩
  have hli : l = m.getMaxLevel - i := by omega
  rw [hi]
  subst hli
  cases i with
  | zero =>
    unfold walk
    rw [hs]
    simp
  | succ i =>
    have hne : m.getMaxLevel - (i + 1) ≠ m.getMaxLevel := by omega
    have hnext : m.getMaxLevel - (m.getMaxLevel - (i + 1) + 1) = i := by omega
    conv_lhs => unfold walk
    rw [hs, if_neg hne, hnext]

theorem walk_path (hp : Path m thead s va l) (hl : l ≤ m.getMaxLevel) :
    walk m thead s va m.getMaxLevel false =
      walk m thead s va (m.getMaxLevel - l) (gAbove m s va l) := by
  induction l with
  | zero => rfl
  | succ l ih =>
    obtain ⟨e, hs, hk⟩ := hp l (Nat.lt_succ_self l)
    rw [ih (fun j hj => hp j (Nat.lt_succ_of_lt hj)) (by omega), walk_depth (by omega) hs, hk]
    simp only
    rw [if_neg (by omega), gAbove, g, hs]
    rfl

theorem walk_eq_none (hl : l ≤ m.getMaxLevel)
    (hp : ∀ j < l, ∃ e, s j (m.idx j (m.low va)) = some e ∧ e.kind thead ≠ .leaf)
    (hs : s l (m.idx l (m.low va)) = some e) (hk : e.kind thead = .fault) :
    walk m thead s va m.getMaxLevel false = none := by
  by_cases hpath : Path m thead s va l
  · rw [walk_path hpath hl, walk_depth hl hs, hk]
  · -- the first slot that is no pointer already faults
    unfold Path at hpath
    push Not at hpath
    obtain ⟨j, ⟨hj, hbad⟩, hmin⟩ := Nat.findX hpath
    have hpj : Path m thead s va j := by
      intro i hi
      have hnot := hmin i hi
      push Not at hnot
      exact hnot (by omega)
    obtain ⟨e', hs', hk'⟩ := hp j hj
    have hfault : e'.kind thead = .fault := by
      cases hc : e'.kind thead with
      | fault => rfl
      | leaf => exact absurd hc hk'
      | pointer => exact absurd hc (hbad e' hs')
    rw [walk_path hpj (by omega), walk_depth (by omega) hs', hfault]

theorem hw_leaf_eq (i : Nat) (g : Bool) (h : e.frame % 2 ^ (9 * i) = 0) :
    Hw.leaf va i g e.word = some {
      pa := e.frame * 4096 + va.toNat % 2 ^ (12 + 9 * i)
      r := e.r, w := e.w, x := e.x, u := e.u, g := g || e.g } := by
  obtain ⟨-, hr, hw, hx, hu, hg, -, -⟩ := e.getLsbD_word
  have hf : Hw.ppn e.word = e.frame := e.word_frame
  unfold Hw.leaf
  rw [hf, hr, hw, hx, hu, hg, if_neg (by simpa using h)]

theorem hw_leaf_some {g : Bool} (h : Hw.leaf va i g e.word = some t) :
    e.frame % 2 ^ (9 * i) = 0 := by
  have hf : Hw.ppn e.word = e.frame := e.word_frame
  unfold Hw.leaf at h
  rw [hf] at h
  by_contra hne
  rw [if_pos hne] at h
  cases h

end Slots

def Pte.translation (m : Mode) (l : Nat) (g : Bool) (va : Addr) (e : Pte) : Translation where
  pa := e.frame * 4096 + va.toNat % 2 ^ m.shift l
  r := e.r
  w := e.w
  x := e.x
  u := e.u
  g := g || e.g

namespace Slots

variable {m : Mode} {thead : Bool} {s : Slots} {va : Addr} {e : Pte}

theorem gAbove_congr {s' : Slots} (h : ∀ j < l, s'.g j (m.idx j (m.low va)) =
    s.g j (m.idx j (m.low va))) : gAbove m s' va l = gAbove m s va l := by
  induction l with
  | zero => rfl
  | succ l ih =>
    unfold gAbove
    rw [ih (fun j hj => h j (Nat.lt_succ_of_lt hj)), h l (Nat.lt_succ_self l)]

theorem walk_leaf (hl : l ≤ m.getMaxLevel) (hp : Path m thead s va l)
    (hs : s l (m.idx l (m.low va)) = some e) (hk : e.kind thead = .leaf)
    (ha : e.frame % 2 ^ (9 * (m.getMaxLevel - l)) = 0) :
    walk m thead s va m.getMaxLevel false = some (e.translation m l (gAbove m s va l) va) := by
  rw [walk_path hp hl, walk_depth hl hs, hk]
  exact hw_leaf_eq _ _ ha

theorem walk_depth_none (hl : l ≤ m.getMaxLevel) (hs : s l (m.idx l (m.low va)) = none)
    (g : Bool) : walk m thead s va (m.getMaxLevel - l) g = none := by
  obtain ⟨i, hi⟩ : ∃ i, m.getMaxLevel - l = i := ⟨_, rfl⟩
  have hli : l = m.getMaxLevel - i := by omega
  rw [hi]
  subst hli
  unfold walk
  rw [hs]

theorem Path.succ (hp : Path m thead s va l) (hs : s l (m.idx l (m.low va)) = some e)
    (hk : e.kind thead = .pointer) : Path m thead s va (l + 1) := by
  intro j hj
  rcases Nat.lt_succ_iff_lt_or_eq.mp hj with hj | rfl
  · exact hp j hj
  · exact ⟨e, hs, hk⟩

def LeafAt (m : Mode) (thead : Bool) (s : Slots) (va : Addr) (l : Nat) (t : Translation) : Prop :=
  Path m thead s va l ∧ ∃ e, s l (m.idx l (m.low va)) = some e ∧ e.kind thead = .leaf ∧
    e.frame % 2 ^ (9 * (m.getMaxLevel - l)) = 0 ∧ t = e.translation m l (gAbove m s va l) va

theorem walk_some_step (h : walk m thead s va m.getMaxLevel false = some t)
    (hl : l ≤ m.getMaxLevel) (hp : Path m thead s va l) :
    LeafAt m thead s va l t ∨ (l < m.getMaxLevel ∧ Path m thead s va (l + 1)) := by
  rw [walk_path hp hl] at h
  cases hs : s l (m.idx l (m.low va)) with
  | none => rw [walk_depth_none hl hs] at h; cases h
  | some e =>
    rw [walk_depth hl hs] at h
    cases hk : e.kind thead with
    | fault => rw [hk] at h; cases h
    | leaf =>
      rw [hk] at h
      have ha := hw_leaf_some h
      refine Or.inl ⟨hp, e, hs, hk, ha, ?_⟩
      exact (Option.some.inj ((hw_leaf_eq _ _ ha).symm.trans h)).symm
    | pointer =>
      rw [hk] at h
      refine Or.inr ⟨?_, hp.succ hs hk⟩
      by_contra hge
      simp only at h
      rw [if_pos (by omega)] at h
      cases h

theorem walk_eq_some (h : walk m thead s va m.getMaxLevel false = some t) :
    ∃ l ≤ m.getMaxLevel, LeafAt m thead s va l t := by
  -- descend as long as the path holds; `n` levels are left
  suffices hgen : ∀ n l, l + n = m.getMaxLevel → Path m thead s va l →
      ∃ l ≤ m.getMaxLevel, LeafAt m thead s va l t by
    exact hgen m.getMaxLevel 0 (by omega) (fun j hj => absurd hj (Nat.not_lt_zero j))
  intro n
  induction n with
  | zero =>
    intro l hn hp
    rcases walk_some_step h (by omega) hp with hleaf | ⟨hlt, -⟩
    · exact ⟨l, by omega, hleaf⟩
    · omega
  | succ n ih =>
    intro l hn hp
    rcases walk_some_step h (by omega) hp with hleaf | ⟨-, hp'⟩
    · exact ⟨l, by omega, hleaf⟩
    · exact ih (l + 1) (by omega) hp'

end Slots

theorem hw_vpn (m : Mode) (va : Addr) (h : i ≤ m.getMaxLevel) :
    Hw.vpn va i = m.idx (m.getMaxLevel - i) (m.low va) % 512 := by
  rw [m.idx_low_mod]
  unfold Hw.vpn Mode.shift
  rw [Nat.sub_sub_self h]

theorem hw_walk_eq (m : Mode) (thead : Bool) (mem : Mem) (va : Addr) (h : i ≤ m.getMaxLevel)
    (ht : layout.tableAt mem root (m.getMaxLevel - i)
      (m.idx (m.getMaxLevel - i) (m.low va) / 512) = some p) (g : Bool) :
    Hw.walk thead (fun a => (mem a).word) va i p g =
      Slots.walk m thead (layout.slot mem root) va i g := by
  induction i generalizing p g with
  | zero =>
    have hs : layout.slot mem root (m.getMaxLevel - 0) (m.idx (m.getMaxLevel - 0) (m.low va)) =
        some (mem (p + 8 * Hw.vpn va 0)) := by
      rw [Layout.slot_eq_some]
      exact ⟨p, ht, by rw [hw_vpn m va h]; rfl⟩
    unfold Hw.walk Slots.walk
    simp only [hs]
    rfl
  | succ i ih =>
    have hs : layout.slot mem root (m.getMaxLevel - (i + 1))
        (m.idx (m.getMaxLevel - (i + 1)) (m.low va)) = some (mem (p + 8 * Hw.vpn va (i + 1))) := by
      rw [Layout.slot_eq_some]
      exact ⟨p, ht, by rw [hw_vpn m va h]; rfl⟩
    have hg := (mem (p + 8 * Hw.vpn va (i + 1))).getLsbD_word.2.2.2.2.2.1
    unfold Hw.walk Slots.walk
    simp only [hs, hg]
    change (match Pte.kind thead _ with
      | .fault => none
      | .leaf => _
      | .pointer => _) = _
    cases hk : Pte.kind thead (mem (p + 8 * Hw.vpn va (i + 1))) with
    | fault => rfl
    | leaf => rfl
    | pointer =>
      simp only
      apply ih (Nat.le_of_succ_le h)
      have hl : m.getMaxLevel - i = m.getMaxLevel - (i + 1) + 1 := by omega
      rw [hl, m.idx_div (by omega), Layout.tableAt_succ, hs, Option.bind_some]
      exact (Pte.next_of_pointer hk).trans (by rw [Hw.ppn, Pte.word_frame])

end Abydos.Mmu
