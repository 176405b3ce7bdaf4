import Mathlib.Data.List.Nodup
import Abydos.Mmu.Block
import Abydos.Mmu.Plan

namespace Abydos.Mmu

open Abydos.Lib Abydos.Lib.Radix

variable {m : Mode} {σ σ' σ₀ : State} {v p s : Addr} {prot : BitVec 32}

def MapArgs (v p s : Addr) (prot : BitVec 32) : Prop :=
  4096 ∣ v.toNat ∧ 4096 ∣ p.toNat ∧ 4096 ∣ s.toNat ∧ v.toNat + s.toNat < 2 ^ 64 ∧
    p.toNat + s.toNat < 2 ^ 64 ∧ Accepted prot

theorem MapArgs.accepted (h : MapArgs v p s prot) : Accepted prot := h.2.2.2.2.2

instance : Decidable (MapArgs v p s prot) := inferInstanceAs (Decidable (_ ∧ _))

def UnmapArgs (v s : Addr) : Prop :=
  4096 ∣ v.toNat ∧ 4096 ∣ s.toNat ∧ v.toNat + s.toNat < 2 ^ 64

instance : Decidable (UnmapArgs v s) := inferInstanceAs (Decidable (_ ∧ _))

theorem page_mask (a : Addr) : a &&& 0xFFF ≠ 0 ↔ ¬ 4096 ∣ a.toNat :=
  not_congr (Word.and_low_eq_zero a (show 12 ≤ 64 by decide))

theorem add_lt_iff (a b : Addr) : a + b < a ↔ ¬ a.toNat + b.toNat < 2 ^ 64 := by
  rw [BitVec.lt_def, BitVec.toNat_add]
  omega

theorem Mode.map_eq (h : MapArgs v p s prot) :
    m.map v p s prot = Script.run (m.mapOp prot) (m.plan (s.toNat / 4096) s.toNat v p) := by
  obtain ⟨hv, hp, hs, hve, hpe, hprot⟩ := h
  have halign : ¬ (v &&& 0xFFF ≠ 0 ∨ p &&& 0xFFF ≠ 0 ∨ s &&& 0xFFF ≠ 0) := by
    rw [page_mask, page_mask, page_mask]
    simp [hv, hp, hs]
  unfold Mode.map
  rw [if_neg halign]
  by_cases h0 : s = 0
  · subst h0
    rfl
  · rw [if_neg h0, if_neg (by rw [add_lt_iff, add_lt_iff]; omega)]
    dsimp only
    rw [if_neg hprot, mapLoop_eq_loop, loop_eq hv hp hs (Nat.le_refl _) (Nat.le_refl _) hve rfl]
    rfl

theorem Mode.map_rejected (h : ¬ MapArgs v p s prot) :
    ∃ rc, m.map v p s prot = (return rc) ∧ (rc = 0 → s = 0 ∧ 4096 ∣ v.toNat) := by
  unfold Mode.map
  by_cases halign : v &&& 0xFFF ≠ 0 ∨ p &&& 0xFFF ≠ 0 ∨ s &&& 0xFFF ≠ 0
  · rw [if_pos halign]
    exact ⟨_, rfl, fun h => absurd h (by decide)⟩
  rw [if_neg halign]
  by_cases h0 : s = 0
  · rw [if_pos h0]
    rw [page_mask] at halign
    push Not at halign
    exact ⟨_, rfl, fun _ => ⟨h0, halign.1⟩⟩
  rw [if_neg h0]
  by_cases hover : v + s < v ∨ p + s < p
  · rw [if_pos hover]
    exact ⟨_, rfl, fun h => absurd h (by decide)⟩
  rw [if_neg hover]
  rw [page_mask, page_mask, page_mask] at halign
  rw [add_lt_iff, add_lt_iff] at hover
  dsimp only
  rw [if_pos]
  · exact ⟨_, rfl, fun h => absurd h (by decide)⟩
  · by_contra hprot
    apply h
    push Not at halign hover
    exact ⟨halign.1, halign.2.1, halign.2.2, hover.1, hover.2, hprot⟩

theorem Mode.unmap_eq (h : UnmapArgs v s) :
    m.unmap v s = Script.run m.unmapOp (m.plan (s.toNat / 4096) s.toNat v v) := by
  obtain ⟨hv, hs, hve⟩ := h
  have halign : ¬ (v &&& 0xFFF ≠ 0 ∨ s &&& 0xFFF ≠ 0) := by
    rw [page_mask, page_mask]
    simp [hv, hs]
  unfold Mode.unmap
  rw [if_neg halign]
  by_cases h0 : s = 0
  · subst h0
    rfl
  · rw [if_neg h0, if_neg (by rw [add_lt_iff]; omega), unmapLoop_eq_loop,
      loop_eq hv hv hs (Nat.le_refl _) (Nat.le_refl _) hve rfl]
    rfl

theorem Mode.unmap_rejected (h : ¬ UnmapArgs v s) :
    ∃ rc, m.unmap v s = return rc := by
  unfold Mode.unmap
  by_cases halign : v &&& 0xFFF ≠ 0 ∨ s &&& 0xFFF ≠ 0
  · rw [if_pos halign]
    exact ⟨_, rfl⟩
  rw [if_neg halign]
  by_cases h0 : s = 0
  · rw [if_pos h0]
    exact ⟨_, rfl⟩
  rw [if_neg h0, if_pos]
  · exact ⟨_, rfl⟩
  · by_contra hover
    rw [page_mask, page_mask] at halign
    rw [add_lt_iff] at hover
    push Not at halign hover
    exact h ⟨halign.1, halign.2, hover⟩

inductive Op (m : Mode)
  | map (b : Block m) (prot : BitVec 32) (accepted : Accepted prot)
  | unmap (b : Block m)

def Op.exec : Op m → MmuM Int
  | .map b prot _ => m.mapOp prot b
  | .unmap b => m.unmapOp b

inductive Call
  | map (vaddr paddr size : Addr) (prot : BitVec 32)
  | unmap (vaddr size : Addr)
  deriving DecidableEq

def Call.exec (m : Mode) : Call → MmuM Int
  | .map vaddr paddr size prot => m.map vaddr paddr size prot
  | .unmap vaddr size => m.unmap vaddr size

def Call.ops (m : Mode) : Call → List (Op m)
  | .map v p s prot =>
    if h : MapArgs v p s prot then
      (m.plan (s.toNat / 4096) s.toNat v p).map (.map · prot h.accepted)
    else []
  | .unmap v s =>
    if UnmapArgs v s then (m.plan (s.toNat / 4096) s.toNat v v).map .unmap else []

theorem Call.ops_map (h : MapArgs v p s prot) : (Call.map v p s prot).ops m =
    (m.plan (s.toNat / 4096) s.toNat v p).map (.map · prot h.accepted) := dif_pos h

theorem Call.ops_unmap (h : UnmapArgs v s) : (Call.unmap v s).ops m =
    (m.plan (s.toNat / 4096) s.toNat v v).map .unmap := if_pos h

theorem Call.exec_eq (m : Mode) (c : Call) :
    c.exec m = Script.run Op.exec (c.ops m) ∨ (c.ops m = [] ∧ ∃ rc, c.exec m = return rc) := by
  cases c with
  | map v p s prot =>
    by_cases h : MapArgs v p s prot
    · rw [Call.ops_map h, Script.run_map]
      exact Or.inl (Mode.map_eq h)
    · obtain ⟨rc, hrc, -⟩ := Mode.map_rejected (m := m) h
      exact Or.inr ⟨dif_neg h, rc, hrc⟩
  | unmap v s =>
    by_cases h : UnmapArgs v s
    · rw [Call.ops_unmap h, Script.run_map]
      exact Or.inl (Mode.unmap_eq h)
    · obtain ⟨rc, hrc⟩ := Mode.unmap_rejected (m := m) h
      exact Or.inr ⟨if_neg h, rc, hrc⟩

def Call.Guarded (m : Mode) (G : State → Op m → Prop) (σ : State) (c : Call) : Prop :=
  Script.Guarded Op.exec G (c.ops m) σ

theorem Call.guarded_page {G : State → Op m → Prop} (ha : MapArgs v p 0x1000 prot)
    (h : ∀ b, b.va = v → G σ (.map b prot ha.accepted)) :
    (Call.map v p 0x1000 prot).Guarded m G σ := by
  obtain ⟨b, hva, hb⟩ := Mode.plan_page (m := m) ha.1 ha.2.1
  unfold Call.Guarded
  rw [Call.ops_map ha]
  change Script.Guarded Op.exec G ((m.plan 1 4096 v p).map _) σ
  rw [hb]
  exact And.intro (h b hva) (fun _ _ => trivial)

theorem Call.rule {I : State → Prop} {F : Trap → State → Prop} {G : State → Op m → Prop}
    (hstep : ∀ σ o, I σ → G σ o → Script.Outcome I F ((Op.exec o).exec σ))
    {c : Call} (hI : I σ) (hg : c.Guarded m G σ) : Script.Outcome I F ((c.exec m).exec σ) := by
  rcases c.exec_eq m with heq | ⟨-, rc, heq⟩
  · rw [heq]
    exact Script.run_rule hstep hI hg
  · rw [heq]
    exact hI

theorem Call.run_rule {I : State → Prop} {F : Trap → State → Prop} {G : State → Op m → Prop}
    (hstep : ∀ σ o, I σ → G σ o → Script.Outcome I F ((Op.exec o).exec σ)) {calls : List Call}
    (hI : I σ) (hg : Script.GuardedAll (Call.exec m) (Call.Guarded m G) calls σ) :
    Script.Outcome I F ((Script.runAll (Call.exec m) calls).exec σ) :=
  Script.runAll_rule (fun _ _ hI hc => Call.rule hstep hI hc) hI hg

/-- The heap and the history before the constructor runs: `memalign` has fresh pages to give. -/
structure Boot (σ : State) : Prop where
  pages : ∀ a ∈ σ.pool, ∃ p, PageOk p ∧ a = kva p
  nodup : σ.pool.Nodup
  tables : σ.tables = []
  log : σ.log = []

def State.fresh (m : Mode) (σ : State) (asid : BitVec 16) (variant : Int) (t : Nat) : State :=
  { σ with
    mem := zeroPage t σ.mem
    pool := σ.pool.tail
    tables := t :: σ.tables
    ptes := kva t
    variant
    satp := { mode := BitVec.ofNat 4 m.mmutype, asid, ppn := BitVec.ofNat 44 (t / 4096) } }

theorem exec_new (hok : PageOk t) (hpool : σ.pool = kva t :: pool) (asid : BitVec 16)
    (variant : Int) : (m.new asid variant).exec σ = (.ok (), σ.fresh m asid variant t) := by
  obtain ⟨⟨c, rfl⟩, hpos, hlt⟩ := hok
  have hroot := kva_unmask hlt
  have hal : (kva (4096 * c) &&& ~~~ 0xFFFFFFC000000000#64) &&& 4095 = 0 := by
    refine (Word.and_low_eq_zero _ (show 12 ≤ 64 by decide)).mpr ?_
    rw [hroot]
    exact Nat.dvd_mul_right _ _
  have hppn : ((kva (4096 * c) &&& ~~~ 0xFFFFFFC000000000#64) >>> 12).setWidth 44 =
      BitVec.ofNat 44 (4096 * c / 4096) := by
    rw [← BitVec.toNat_inj, BitVec.toNat_setWidth, BitVec.toNat_ushiftRight, hroot,
      Nat.shiftRight_eq_div_pow, BitVec.toNat_ofNat]
  unfold Mode.new
  rw [Prog.exec_bind_ok (exec_alignedMalloc hpool), kva_sub hlt,
    Prog.exec_bind_ok (exec_memset (toPhys_kva hlt)), Prog.exec_modify]
  unfold State.fresh
  simp only [hal, ne_eq, not_true_eq_false, if_false, hppn, hpool, List.tail_cons]

section Fresh

variable (hb : Boot σ) (hok : PageOk t) (hpool : σ.pool = kva t :: pool)

include hok

theorem fresh_root (asid : BitVec 16) (variant : Int) : (σ.fresh m asid variant t).root = t :=
  kva_sub hok.2.2

theorem fresh_slot (asid : BitVec 16) (variant : Int)
    (hs : (σ.fresh m asid variant t).slots l k = some e) : l = 0 ∧ e = {} := by
  have hroot := fresh_root (m := m) (σ := σ) hok asid variant
  have hzero : ∀ k e, (σ.fresh m asid variant t).slots 0 k = some e → e = {} := by
    intro k e hs
    obtain ⟨p, ht, he⟩ := layout.slot_eq_some.mp hs
    unfold Layout.tableAt at ht
    rw [hroot] at ht
    split at ht
    · cases ht
      rw [← he]
      exact zeroPage_self t σ.mem (Nat.mod_lt _ (by decide))
    · cases ht
  induction l generalizing k e with
  | zero => exact ⟨rfl, hzero k e hs⟩
  | succ l ih =>
    obtain ⟨p, ht, -⟩ := layout.slot_eq_some.mp hs
    rw [Layout.tableAt_succ] at ht
    obtain ⟨e', hs', hn⟩ := Option.bind_eq_some_iff.mp ht
    obtain ⟨rfl, rfl⟩ := ih hs'
    cases hn

theorem fresh_table (asid : BitVec 16) (variant : Int)
    (ht : layout.tableAt (σ.fresh m asid variant t).mem (σ.fresh m asid variant t).root l k =
      some q) :
    l = 0 ∧ k = 0 ∧ q = t := by
  cases l with
  | zero =>
    unfold Layout.tableAt at ht
    rw [fresh_root hok] at ht
    split at ht
    next h0 =>
      cases ht
      exact ⟨rfl, h0, rfl⟩
    next => cases ht
  | succ l =>
    rw [Layout.tableAt_succ] at ht
    obtain ⟨e', hs', hn⟩ := Option.bind_eq_some_iff.mp ht
    obtain ⟨-, rfl⟩ := fresh_slot hok asid variant hs'
    cases hn

include hb hpool

theorem fresh_wf (asid : BitVec 16) (variant : Int) : Wf m (σ.fresh m asid variant t) where
  tree := by
    constructor
    · intro l k q h
      obtain ⟨-, -, rfl⟩ := fresh_table hok asid variant h
      exact hok.1
    · intro l k q l' k' h h'
      obtain ⟨rfl, rfl, -⟩ := fresh_table hok asid variant h
      obtain ⟨rfl, rfl, -⟩ := fresh_table hok asid variant h'
      exact ⟨rfl, rfl⟩
  ptes := by rw [fresh_root hok]; rfl
  satp := by
    rw [fresh_root hok]
    change (BitVec.ofNat 44 (t / 4096)).toNat * 4096 = t
    obtain ⟨⟨c, rfl⟩, -, hlt⟩ := hok
    rw [BitVec.toNat_ofNat]
    omega
  pages hq := by
    change _ ∈ t :: σ.tables at hq
    rw [hb.tables, List.mem_singleton] at hq
    exact hq ▸ hok
  linked h := by
    obtain ⟨-, -, rfl⟩ := fresh_table hok asid variant h
    exact List.mem_cons_self
  pool ha := by
    change _ ∈ σ.pool.tail at ha
    have hnd := hb.nodup
    rw [hpool, List.nodup_cons] at hnd
    rw [hpool, List.tail_cons] at ha
    obtain ⟨p, hp, rfl⟩ := hb.pages _ (hpool ▸ List.mem_cons_of_mem _ ha)
    refine ⟨p, hp, rfl, ?_⟩
    change p ∉ t :: σ.tables
    rw [hb.tables, List.mem_singleton]
    rintro rfl
    exact hnd.1 ha
  nodup := hb.nodup.tail
  slots hs := by
    obtain ⟨-, rfl⟩ := fresh_slot hok asid variant hs
    exact .empty rfl rfl
  log ha := by
    change _ ∈ σ.log at ha
    rw [hb.log] at ha
    cases ha

end Fresh

theorem Boot.new (hb : Boot σ) (h : (m.new asid variant).exec σ = (.ok (), σ₀)) :
    Wf m σ₀ ∧ ∀ l k e, σ₀.slots l k = some e → l = 0 ∧ e = {} := by
  cases hpool : σ.pool with
  | nil =>
    cases (Prog.exec_bind_error (exec_alignedMalloc_nil hpool)).symm.trans h
  | cons a pool =>
    obtain ⟨t, hok, rfl⟩ := hb.pages a (hpool ▸ List.mem_cons_self)
    cases (exec_new hok hpool asid variant).symm.trans h
    exact ⟨fresh_wf hb hok hpool asid variant, fun _ _ _ hs => fresh_slot hok asid variant hs⟩

def State.boot (pages : List Nat) : State where
  mem _ := {}
  pool := pages.map kva

theorem State.boot_boot (pages : List Nat) (h : ∀ p ∈ pages, PageOk p) (hnd : pages.Nodup) :
    Boot (State.boot pages) where
  pages a ha := by
    obtain ⟨p, hp, rfl⟩ := List.mem_map.mp ha
    exact ⟨p, h p hp, rfl⟩
  nodup := by
    refine List.Nodup.map_on ?_ hnd
    intro p hp q hq heq
    exact kva_injective (h p hp).2.2 (h q hq).2.2 heq
  tables := rfl
  log := rfl

end Abydos.Mmu
