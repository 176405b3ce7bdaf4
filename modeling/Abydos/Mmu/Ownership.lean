import Abydos.Mmu.Calls

namespace Abydos.Mmu

open Abydos.Lib Abydos.Lib.Radix

variable {m : Mode} {σ σ' σ₀ : State} {v p s : Addr} {prot : BitVec 32}

/-- A block step that stays in the MMU's own tables.  `_createPTE` follows the address of a leaf
above the block unless it is zero; `_getPTE` below the root uses physical addresses as they are. -/
def Op.Inside (σ : State) : Op m → Prop
  | .map b _ _ => σ.Open m b.va b.level
  | .unmap b => b.level = 0

theorem Op.exec_wf (hw : Wf m σ) {o : Op m} (ho : o.Inside σ) :
    Script.Outcome (Wf m) (fun _ => Wf m) (o.exec.exec σ) := by
  cases o with
  | map b prot hprot =>
    obtain ⟨r, σ', hex, hw', -⟩ := mapBlock_step hw b.level_le ho b.pa_dvd hprot
    change Script.Outcome _ _ ((m.mapBlock (m.shift b.level) b.va b.pa prot).exec σ)
    rw [hex]
    cases r <;> exact hw'
  | unmap b =>
    obtain ⟨rc, σ', hex, hw', -⟩ := unmapBlock_root hw b.va
    change Script.Outcome _ _ ((m.unmapBlock (m.shift b.level) b.va).exec σ)
    rw [show b.level = 0 from ho, hex]
    exact hw'

/-- In a run whose block steps all stay inside, every PTE word read or written lies in a table page
that was allocated for the MMU and linked from its root at that moment. -/
theorem accesses_owned (hb : Boot σ) (hnew : (m.new asid variant).exec σ = (.ok (), σ₀))
    (calls : List Call)
    (hg : Script.GuardedAll (Call.exec m) (Call.Guarded m Op.Inside) calls σ₀)
    (hrun : (Script.runAll (Call.exec m) calls).exec σ₀ = (r, σ')) :
    ∀ a ∈ σ'.log, a.Owned σ'.root := by
  have hout := Call.run_rule (fun σ o hw ho => Op.exec_wf hw ho) (hb.new hnew).1 hg
  rw [hrun] at hout
  have hw : Wf m σ' := by cases r <;> exact hout
  exact fun a ha => hw.log ha

theorem Op.inside_of_empty (h : ∀ l k e, σ.slots l k = some e → l = 0 ∧ e = {}) (b : Block m)
    (hprot : Accepted prot) : Op.Inside σ (.map b prot hprot) := by
  intro l _ e hs hk
  obtain ⟨-, rfl⟩ := h _ _ _ hs
  cases (Pte.kind_of_not_v rfl).symm.trans hk

theorem Call.inside_root (hv : 2 ^ m.shift 0 ∣ v.toNat) (hs : 2 ^ m.shift 0 ∣ s.toNat)
    (ha : UnmapArgs v s) (σ : State) : (Call.unmap v s).Guarded m Op.Inside σ := by
  unfold Call.Guarded
  rw [Call.ops_unmap ha]
  apply Script.Guarded.of_forall
  intro o ho σ
  obtain ⟨b, hb, rfl⟩ := List.mem_map.mp ho
  exact Mode.plan_root hv hv hs hb

theorem accesses_owned_page :
    0 < ((Script.runAll (Call.exec .sv39)
      [.map 0x1000 0x5000 0x1000 1, .unmap 0 0x40000000]).exec
        ((State.boot [0x1000, 0x2000, 0x3000]).fresh .sv39 0 0 0x1000)).2.log.length ∧
    ∀ a ∈ ((Script.runAll (Call.exec .sv39)
      [.map 0x1000 0x5000 0x1000 1, .unmap 0 0x40000000]).exec
        ((State.boot [0x1000, 0x2000, 0x3000]).fresh .sv39 0 0 0x1000)).2.log,
      a.Owned ((Script.runAll (Call.exec .sv39)
        [.map 0x1000 0x5000 0x1000 1, .unmap 0 0x40000000]).exec
          ((State.boot [0x1000, 0x2000, 0x3000]).fresh .sv39 0 0 0x1000)).2.root := by
  have hb := State.boot_boot [0x1000, 0x2000, 0x3000] (by decide) (by decide)
  have hnew := exec_new (m := .sv39) (σ := State.boot [0x1000, 0x2000, 0x3000]) (t := 0x1000)
    (by decide) rfl 0 0
  refine ⟨by decide +kernel, ?_⟩
  apply accesses_owned hb hnew
    [.map 0x1000 0x5000 0x1000 1, .unmap 0 0x40000000] ?_ rfl
  refine And.intro (Call.guarded_page (by decide) ?_) fun _ _ _ => ?_
  · exact fun b _ => Op.inside_of_empty (hb.new hnew).2 b _
  exact And.intro (Call.inside_root (by decide) (by decide) (by decide) _) fun _ _ _ => trivial

def Access.foreign (a : Access) : Bool :=
  a.tables.all fun p => (List.range 512).all fun i => a.addr ≠ kva (layout.addr p i)

theorem Access.foreign_not_owned {a : Access} (h : a.foreign = true) (root : Nat) :
    ¬ a.Owned root := by
  rintro ⟨-, -, p, i, -, hp, hi, heq⟩
  have hall := List.all_eq_true.mp (List.all_eq_true.mp h p hp) i (List.mem_range.mpr hi)
  exact of_decide_eq_true hall heq

/-- One page is mapped and unmapped: `_unmap` reads its table at the physical address.  A page is
mapped inside a gigapage: `_map` takes the memory mapped there for a table. -/
theorem accesses_not_owned :
    (∃ a ∈ ((Script.runAll (Call.exec .sv39) [.map 0 0x5000 0x1000 1, .unmap 0 0x1000]).exec
        ((State.boot [0x1000, 0x2000, 0x3000]).fresh .sv39 0 0 0x1000)).2.log, ¬ a.Owned 0x1000) ∧
    ∃ a ∈ ((Script.runAll (Call.exec .sv39)
        [.map 0 0x40000000 0x40000000 3, .map 0 0x5000 0x1000 1]).exec
        ((State.boot [0x1000, 0x2000, 0x3000]).fresh .sv39 0 0 0x1000)).2.log,
      ¬ a.Owned 0x1000 := by
  have hex (log : List Access) (h : log.any Access.foreign = true) :
      ∃ a ∈ log, ¬ a.Owned 0x1000 := by
    obtain ⟨a, ha, hf⟩ := List.any_eq_true.mp h
    exact ⟨a, ha, Access.foreign_not_owned hf _⟩
  exact ⟨hex _ (by decide +kernel), hex _ (by decide +kernel)⟩

end Abydos.Mmu
