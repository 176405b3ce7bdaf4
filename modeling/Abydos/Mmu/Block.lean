import Abydos.Mmu.Translate

namespace Abydos.Mmu

open Abydos.Lib Abydos.Lib.Radix

variable {m : Mode} {σ σ' : State} {va pa : Addr} {e e' : Pte} {prot : BitVec 32}

theorem Mode.calcLevel_shift (h : L ≤ m.getMaxLevel) : m.calcLevel (m.shift L) = L := by
  cases m with
  | sv39 => change L ≤ 2 at h; interval_cases L <;> rfl
  | sv48 => change L ≤ 3 at h; interval_cases L <;> rfl
  | sv57 => change L ≤ 4 at h; interval_cases L <;> rfl

def Accepted (prot : BitVec 32) : Prop :=
  ¬ (prot &&& (PROT_R ||| PROT_W ||| PROT_X) = 0b000 ∨
    prot &&& (PROT_R ||| PROT_W ||| PROT_X) = 0b010 ∨
    prot &&& (PROT_R ||| PROT_W ||| PROT_X) = 0b110)

instance : Decidable (Accepted prot) := inferInstanceAs (Decidable (¬ _))

theorem Accepted.bits (h : Accepted prot) :
    (prot &&& PROT_R ≠ 0 ∨ prot &&& PROT_X ≠ 0) ∧ (prot &&& PROT_W ≠ 0 → prot &&& PROT_R ≠ 0) := by
  -- only the three low bits matter
  have hmask (b : BitVec 32) (hb : 7#32 &&& b = b) : prot &&& b = (prot &&& 7#32) &&& b := by
    rw [BitVec.and_assoc, hb]
  obtain ⟨q, hq⟩ : ∃ q, prot &&& 7#32 = q := ⟨_, rfl⟩
  have hlt : q.toNat < 8 := by
    rw [← hq, show 7#32 = BitVec.ofNat 32 (2 ^ 3 - 1) from rfl, Word.toNat_and_low _ (by decide)]
    exact Nat.mod_lt _ (by decide)
  have hcases : ∀ n < 8, ¬ (BitVec.ofNat 32 n = 0 ∨ BitVec.ofNat 32 n = 2 ∨ BitVec.ofNat 32 n = 6) →
      (BitVec.ofNat 32 n &&& PROT_R ≠ 0 ∨ BitVec.ofNat 32 n &&& PROT_X ≠ 0) ∧
        (BitVec.ofNat 32 n &&& PROT_W ≠ 0 → BitVec.ofNat 32 n &&& PROT_R ≠ 0) := by decide
  have hofNat : BitVec.ofNat 32 q.toNat = q := by simp
  have hres := hcases q.toNat hlt
  rw [hofNat, ← hq] at hres
  rw [hmask PROT_R (by decide), hmask PROT_W (by decide), hmask PROT_X (by decide)]
  exact hres h

section Leaf

variable (variant : Int) (pa : Addr) (prot : BitVec 32) (e : Pte)

theorem Pte.leaf_fields :
    (e.leaf variant pa prot).v = true ∧
      (e.leaf variant pa prot).r = decide (prot &&& PROT_R ≠ 0) ∧
      (e.leaf variant pa prot).w = decide (prot &&& PROT_W ≠ 0) ∧
      (e.leaf variant pa prot).x = decide (prot &&& PROT_X ≠ 0) ∧
      (e.leaf variant pa prot).u = decide (prot &&& PROT_U ≠ 0) ∧
      (e.leaf variant pa prot).g = decide (prot &&& PROT_G ≠ 0) := by
  unfold Pte.leaf
  dsimp only
  split <;> exact ⟨rfl, rfl, rfl, rfl, rfl, rfl⟩

theorem Pte.leaf_marks : (e.leaf variant pa prot).a = (e.leaf variant pa prot).r ∧
    (e.leaf variant pa prot).d = (e.leaf variant pa prot).w := by
  unfold Pte.leaf
  dsimp only
  split <;> exact ⟨rfl, rfl⟩

theorem Pte.leaf_frame : (e.leaf variant pa prot).frame = pa.toNat / 4096 % 2 ^ 44 := by
  unfold Pte.leaf
  dsimp only
  split <;> exact e.frame_ppn pa

theorem Pte.leaf_reserved (h : variant ≠ VARIANT_THEAD_C906) :
    (e.leaf variant pa prot).reserved = 0 := by
  unfold Pte.leaf
  dsimp only
  rw [if_neg (fun hv => h hv.1)]
  rfl

theorem Pte.leaf_kind (h : Accepted prot) :
    (e.leaf variant pa prot).kind (decide (variant = VARIANT_THEAD_C906)) = .leaf := by
  obtain ⟨hv, hr, hw, hx, -⟩ := e.leaf_fields variant pa prot
  obtain ⟨hrx, hwr⟩ := h.bits
  refine Pte.kind_eq_leaf.mpr ⟨hv, ?_, ?_, ?_⟩
  · rw [hr, hx, decide_eq_true_iff, decide_eq_true_iff]
    exact hrx
  · rw [hr, hw, decide_eq_true_iff, decide_eq_true_iff]
    exact hwr
  · by_cases ht : variant = VARIANT_THEAD_C906
    · exact Or.inr (decide_eq_true ht)
    · exact Or.inl (e.leaf_reserved variant pa prot ht)

end Leaf

theorem frame_aligned (h : 2 ^ m.shift L ∣ pa.toNat) :
    pa.toNat / 4096 % 2 ^ 44 % 2 ^ (9 * (m.getMaxLevel - L)) = 0 := by
  have hle : 9 * (m.getMaxLevel - L) ≤ 44 := by cases m <;> simp [Mode.getMaxLevel] <;> omega
  rw [Nat.mod_mod_of_dvd _ (Nat.pow_dvd_pow 2 hle)]
  obtain ⟨c, hc⟩ := h
  unfold Mode.shift at hc
  rw [hc, Nat.pow_add, Nat.mul_assoc, Nat.mul_div_cancel_left _ (by decide)]
  exact Nat.mul_mod_right _ _

theorem Pte.leaf_ok (h : Accepted prot) (ha : 2 ^ m.shift L ∣ pa.toNat) (e : Pte) :
    SlotOk m σ.thead L (e.leaf σ.variant pa prot) := by
  refine .leaf (e.leaf_kind _ _ _ h) ?_ (e.leaf_marks _ _ _).1 (e.leaf_marks _ _ _).2
  rw [Pte.leaf_frame]
  exact frame_aligned ha

section Put

variable (hw : Wf m σ) (ht : layout.tableAt σ.mem σ.root l (k / 512) = some p)

theorem below_key (hj : j ≤ m.getMaxLevel) (h : layout.Below l k j (m.key va j / 512)) :
    m.key va l = k := by
  induction j with
  | zero => exact h.elim
  | succ j ih =>
    rw [m.key_div hj] at h
    rcases h with ⟨rfl, hk⟩ | h
    · exact hk
    · exact ih (Nat.le_of_succ_le hj) h

def State.put (σ : State) (p k : Nat) (e : Pte) (log : List Access) : State :=
  { σ with mem := layout.write σ.mem p k e, log }

include hw

theorem put_satp (log : List Access) :
    (σ.put p k e' log).satp.ppn.toNat * 4096 = (σ.put p k e' log).root := hw.satp

include ht

theorem put_translate_other (log : List Access) (hne : m.key va l ≠ k) :
    (σ.put p k e' log).translate m va = σ.translate m va := by
  apply State.translate_congr hw.satp (put_satp hw log) rfl
  intro j hj
  apply layout.slot_write_other hw.tree ht
  · rintro ⟨rfl, hk⟩
    exact hne hk
  · exact fun hb => hne (below_key hj hb)

theorem put_translate_fault (log : List Access) (hl : l ≤ m.getMaxLevel) (hk : m.key va l = k)
    (hv : e'.v = false) : (σ.put p k e' log).translate m va = none := by
  subst hk
  exact State.translate_eq_none (put_satp hw log) hl (layout.slot_write_self hw.tree ht)
    (Pte.kind_of_not_v hv)

theorem put_translate_leaf (log : List Access) (hl : l ≤ m.getMaxLevel) (hk : m.key va l = k)
    (hc : m.Canonical va) (hp : Slots.Path m σ.thead σ.slots va l)
    (hleaf : e'.kind σ.thead = .leaf) (ha : e'.frame % 2 ^ (9 * (m.getMaxLevel - l)) = 0) :
    (σ.put p k e' log).translate m va =
      some (e'.translation m l (Slots.gAbove m σ.slots va l) va) := by
  subst hk
  have habove : ∀ j < l, (σ.put p (m.key va l) e' log).slots j (m.key va j) =
      σ.slots j (m.key va j) := by
    intro j hj
    apply layout.slot_write_other hw.tree ht
    · rintro ⟨rfl, -⟩
      exact Nat.lt_irrefl j hj
    · exact layout.not_below_of_le (Nat.le_of_lt hj)
  have hg : Slots.gAbove m (σ.put p (m.key va l) e' log).slots va l =
      Slots.gAbove m σ.slots va l := by
    apply Slots.gAbove_congr
    intro j hj
    exact congrArg (fun o => (Option.map Pte.g o).getD false) (habove j hj)
  rw [State.translate_eq (put_satp hw log) hc, ← hg]
  refine Slots.walk_leaf hl ?_ (layout.slot_write_self hw.tree ht) hleaf ha
  intro j hj
  obtain ⟨e, hs, hk⟩ := hp j hj
  exact ⟨e, (habove j hj).trans hs, hk⟩

end Put

theorem Wf.mem_slot (_ : Wf m σ) (ht : layout.tableAt σ.mem σ.root l (k / 512) = some p)
    (hs : σ.slots l k = some e) : σ.mem (layout.addr p (k % 512)) = e := by
  obtain ⟨q, hq, he⟩ := layout.slot_eq_some.mp hs
  cases (show layout.tableAt σ.mem σ.root l (k / 512) = some q from hq).symm.trans ht
  exact he

theorem exec_modifyPTE_slot (hw : Wf m σ) (ht : layout.tableAt σ.mem σ.root l (k / 512) = some p)
    (hs : σ.slots l k = some e) (f : Pte → Pte) (hn : (f e).next = none)
    (hok : SlotOk m σ.thead l (f e)) :
    ∃ log, (modifyPTE (kva (layout.addr p (k % 512))) f).exec σ = (.ok (), σ.put p k (f e) log) ∧
      Wf m (σ.put p k (f e) log) := by
  have hi : k % 512 < 512 := Nat.mod_lt _ (by decide)
  have hw₂ := (hw.logged ht hi).logged ht hi
  refine ⟨_, ?_, hw₂.put ht hn hok⟩
  rw [exec_modifyPTE (toPhys_kva ((hw.page ht).addr_lt hi)), hw.mem_slot ht hs]
  rfl

/-- What `_map` can do at depth `L`. -/
inductive MapStep (m : Mode) (L : Nat) (va pa : Addr) (prot : BitVec 32) (σ : State) :
    Except Trap Int → State → Prop
  | noMemory {σ₁ : State} (h : Links m va L σ σ₁) : MapStep m L va pa prot σ (.error .noMemory) σ₁
  | already {e : Pte} (log : List Access) (hs : σ.slots L (m.key va L) = some e)
      (hv : e.v = true) : MapStep m L va pa prot σ (.ok K_EALREADY) { σ with log }
  | installed {σ₁ : State} {e : Pte} (log : List Access) (h : Links m va L σ σ₁) (hw : Wf m σ₁)
      (ht : layout.tableAt σ₁.mem σ₁.root L (m.key va L / 512) = some p)
      (hs : σ₁.slots L (m.key va L) = some e) (hv : e.v = false) :
      MapStep m L va pa prot σ (.ok 0) (σ₁.put p (m.key va L) (e.leaf σ.variant pa prot) log)

namespace MapStep

theorem thead (h : MapStep m L va pa prot σ r σ') : σ'.thead = σ.thead := by
  cases h with
  | noMemory h => exact h.thead
  | already => rfl
  | installed _ h => exact h.thead

theorem installed_leaf (h : MapStep m L va pa prot σ r σ') (hprot : Accepted prot)
    (hr : r = .ok 0) :
    ∃ e, σ'.slots L (m.key va L) = some e ∧ e.kind σ.thead = .leaf := by
  cases h with
  | noMemory => cases hr
  | already => exact absurd hr (by decide)
  | @installed q σ₁ e₁ log h hw ht hs hv =>
    exact ⟨_, layout.slot_write_self hw.tree ht, e₁.leaf_kind σ.variant pa prot hprot⟩

theorem root_frame (h : MapStep m L va pa prot σ r σ') (hk : m.key va 0 ≠ k) :
    σ'.slots 0 k = σ.slots 0 k := by
  cases h with
  | noMemory h => exact h.root_frame hk
  | already => rfl
  | installed _ h hw ht hs hv =>
    rw [← h.root_frame hk]
    apply layout.slot_write_other hw.tree ht
    · rintro ⟨rfl, rfl⟩
      exact hk rfl
    · exact layout.not_below_of_le (Nat.zero_le _)

theorem root_keep (h : MapStep m (L + 1) va pa prot σ r σ')
    (hs : σ.slots 0 (m.key va 0) = some e) (hk : e.kind σ.thead ≠ .leaf) :
    ∃ e', σ'.slots 0 (m.key va 0) = some e' ∧ e'.kind σ.thead ≠ .leaf ∧ e'.a = e.a ∧ e'.u = e.u ∧
      e'.g = e.g := by
  cases h with
  | noMemory h => exact h.root_keep hs hk
  | already => exact ⟨e, hs, hk, rfl, rfl, rfl⟩
  | installed _ h hw ht hs' hv =>
    obtain ⟨e', he', hrest⟩ := h.root_keep hs hk
    refine ⟨e', ?_, hrest⟩
    rw [← he']
    apply layout.slot_write_other hw.tree ht
    · rintro ⟨h0, -⟩
      cases h0
    · exact layout.not_below_of_le (Nat.zero_le _)

theorem leaf_of (h : MapStep m L va pa prot σ r σ') (hprot : Accepted prot)
    (hs : σ'.slots l k = some e) (hk : e.kind σ.thead = .leaf)
    (hne : ¬ (l = L ∧ k = m.key va L)) : σ.slots l k = some e := by
  cases h with
  | noMemory h => exact h.leaf_of hs hk
  | already => exact hs
  | @installed q σ₁ e₁ log h hw ht hs' hv =>
    have hnext := Pte.next_of_leaf (e₁.leaf_kind σ.variant pa prot hprot)
    rcases layout.slot_of_write hw.tree ht hnext hs with ⟨rfl, rfl, -⟩ | hs
    · exact absurd ⟨rfl, rfl⟩ hne
    · exact h.leaf_of hs hk

end MapStep

theorem mapBlock_step (hw : Wf m σ) (hl : L ≤ m.getMaxLevel) (ho : σ.Open m va L)
    (ha : 2 ^ m.shift L ∣ pa.toNat) (hprot : Accepted prot) :
    ∃ r σ', (m.mapBlock (m.shift L) va pa prot).exec σ = (r, σ') ∧ Wf m σ' ∧
      MapStep m L va pa prot σ r σ' := by
  obtain ⟨r, σ₁, hex, hlinks, hw₁, hr⟩ := createPTE_spec hw hl ho
  unfold Mode.mapBlock
  dsimp only
  rw [m.calcLevel_shift hl, if_neg (by omega), Int.toNat_natCast]
  rcases hr with rfl | ⟨p, ht, rfl, hsame⟩
  · exact ⟨_, _, Prog.exec_bind_error hex, hw₁, .noMemory hlinks⟩
  have hi : m.key va L % 512 < 512 := Nat.mod_lt _ (by decide)
  have hphys := toPhys_kva ((hw₁.page ht).addr_lt hi)
  obtain ⟨e, he⟩ : ∃ e, σ₁.mem (layout.addr p (m.key va L % 512)) = e := ⟨_, rfl⟩
  have hs : σ₁.slots L (m.key va L) = some e := layout.slot_eq_some.mpr ⟨p, ht, he⟩
  have hw₂ := hw₁.logged ht hi
  rw [Prog.exec_bind_ok hex, Prog.exec_bind_ok (exec_load hphys), he]
  cases hv : e.v with
  | true =>
    refine ⟨_, _, rfl, hw₂, ?_⟩
    rcases hsame with hsame | hempty
    · unfold State.logged
      rw [hsame]
      rw [hsame] at hs
      exact .already _ hs hv
    · cases hempty.symm.trans hs
      cases hv
  | false =>
    have hkind : (e.leaf σ.variant pa prot).kind σ₁.thead = .leaf := by
      rw [hlinks.thead]
      exact e.leaf_kind σ.variant pa prot hprot
    have hok : SlotOk m σ₁.thead L (e.leaf σ.variant pa prot) := by
      rw [hlinks.thead]
      exact e.leaf_ok hprot ha
    obtain ⟨log, hex₃, hw₃⟩ := exec_modifyPTE_slot hw₂ ht hs (Pte.leaf σ.variant pa prot)
      (Pte.next_of_leaf hkind) hok
    refine ⟨_, _, ?_, hw₃, .installed log (hlinks.requiet _) hw₂ ht hs hv⟩
    rw [← hlinks.variant] at hex₃ ⊢
    exact Prog.exec_bind_ok hex₃

theorem Pte.clear_ok (e : Pte) (thead : Bool) (l : Nat) : SlotOk m thead l e.clear := by
  refine .empty rfl ?_
  change (Pte.ppn { e with v := false } 0).frame = 0
  rw [Pte.frame_ppn]
  rfl

inductive UnmapStep (m : Mode) (va : Addr) (σ : State) : Int → State → Prop
  | already {e : Pte} (log : List Access) (hs : σ.slots 0 (m.key va 0) = some e)
      (hv : e.v = false) : UnmapStep m va σ K_EALREADY { σ with log }
  | cleared {e : Pte} (log : List Access) (hs : σ.slots 0 (m.key va 0) = some e)
      (hv : e.v = true) : UnmapStep m va σ 0 (σ.put σ.root (m.key va 0) e.clear log)

theorem unmapBlock_root (hw : Wf m σ) (va : Addr) :
    ∃ rc σ', (m.unmapBlock (m.shift 0) va).exec σ = (.ok rc, σ') ∧ Wf m σ' ∧
      UnmapStep m va σ rc σ' := by
  have ht : layout.tableAt σ.mem σ.root 0 (m.key va 0 / 512) = some σ.root := by
    rw [m.key_zero_div]
    exact hw.root_linked
  have hi : m.key va 0 % 512 < 512 := Nat.mod_lt _ (by decide)
  have hphys := toPhys_kva (hw.root_ok.addr_lt hi)
  obtain ⟨e, he⟩ : ∃ e, σ.mem (layout.addr σ.root (m.key va 0 % 512)) = e := ⟨_, rfl⟩
  have hs : σ.slots 0 (m.key va 0) = some e := layout.slot_eq_some.mpr ⟨_, ht, he⟩
  have hget : (m.getPTE 0 va).exec σ = (.ok (kva (layout.addr σ.root (m.key va 0 % 512))), σ) := by
    change (Except.ok (entry σ.ptes _), σ) = _
    rw [hw.ptes, entry_kva hw.root_ok, m.getVPN_toNat (Nat.zero_le _)]
    rfl
  have hw₂ := hw.logged ht hi
  unfold Mode.unmapBlock
  dsimp only
  rw [m.calcLevel_shift (Nat.zero_le _), if_neg (by omega), Int.toNat_natCast,
    Prog.exec_bind_ok hget, Prog.exec_bind_ok (exec_load hphys), he]
  cases hv : e.v with
  | true =>
    obtain ⟨log, hex, hw₃⟩ := exec_modifyPTE_slot hw₂ ht hs Pte.clear
      (Pte.next_of_not_v rfl) (e.clear_ok _ _)
    exact ⟨_, _, Prog.exec_bind_ok hex, hw₃, .cleared log hs hv⟩
  | false => exact ⟨_, _, rfl, hw₂, .already _ hs hv⟩

theorem toPhys_low (e : Pte) (poff : BitVec 9) : toPhys (entry e.paddr poff) = none := by
  have hi := poff.isLt
  have hp : e.paddr.toNat < 2 ^ 38 := by
    rw [Pte.paddr_toNat]
    exact Nat.mod_lt _ (by decide)
  unfold toPhys
  rw [if_neg]
  unfold entry K_VADDR_BASE
  rw [BitVec.le_def, BitVec.toNat_add, BitVec.toNat_mul, BitVec.toNat_setWidth]
  simp only [BitVec.ofNat_eq_ofNat, BitVec.toNat_ofNat]
  omega

theorem getPTE_low (m : Mode) (L : Nat) (va : Addr) (σ : State) :
    ∃ r σ', (m.getPTE (L + 1) va).exec σ = (r, σ') ∧
      ((∃ a, r = .ok a ∧ toPhys a = none) ∨ ∃ a, r = .error (.fault a)) := by
  induction L with
  | zero =>
    have hroot : (m.getPTE 0 va).exec σ = (.ok (entry σ.ptes (m.getVPN 0 va)), σ) := rfl
    cases hp : toPhys (entry σ.ptes (m.getVPN 0 va)) with
    | none =>
      exact ⟨_, _, (Prog.exec_bind_ok hroot).trans (Prog.exec_bind_error (exec_load_fault hp)),
        Or.inr ⟨_, rfl⟩⟩
    | some q =>
      exact ⟨_, _, (Prog.exec_bind_ok hroot).trans (Prog.exec_bind_ok (exec_load hp)),
        Or.inl ⟨_, rfl, toPhys_low _ _⟩⟩
  | succ L ih =>
    obtain ⟨r, σ₁, hex, ⟨a, rfl, ha⟩ | ⟨a, rfl⟩⟩ := ih
    · exact ⟨_, _, (Prog.exec_bind_ok hex).trans (Prog.exec_bind_error (exec_load_fault ha)),
        Or.inr ⟨a, rfl⟩⟩
    · exact ⟨_, _, Prog.exec_bind_error hex, Or.inr ⟨a, rfl⟩⟩

theorem unmapBlock_low (hl : L + 1 ≤ m.getMaxLevel) (va : Addr) (σ : State) :
    ∃ a σ', (m.unmapBlock (m.shift (L + 1)) va).exec σ = (.error (.fault a), σ') := by
  unfold Mode.unmapBlock
  dsimp only
  rw [m.calcLevel_shift hl, if_neg (by omega), Int.toNat_natCast]
  obtain ⟨r, σ₁, hex, ⟨a, rfl, ha⟩ | ⟨a, rfl⟩⟩ := getPTE_low m L va σ
  · exact ⟨a, _, (Prog.exec_bind_ok hex).trans (Prog.exec_bind_error (exec_load_fault ha))⟩
  · exact ⟨a, _, Prog.exec_bind_error hex⟩

end Abydos.Mmu
