import Abydos.Mmu.Conflict

namespace Abydos.Mmu

open Abydos.Lib Abydos.Lib.Radix

variable {m : Mode} {σ σ' σ₀ σ₁ : State} {v p s va pa δ : Addr} {prot : BitVec 32}
  {G : Nat → Prop}

/-- No entry but a leaf has A, D or U on, and G only in the root at the indices `G`. -/
def State.Mild (G : Nat → Prop) (σ : State) : Prop :=
  ∀ l k e, σ.slots l k = some e → e.kind σ.thead ≠ .leaf →
    (e.u = false ∧ e.a = false ∧ e.d = false) ∧ (e.g = true → l = 0 ∧ G k)

namespace State.Mild

theorem links (h : σ.Mild G) (hl : Links m va n σ σ')
    (hno : ∀ l < n, ∀ e, σ.slots l (m.key va l) = some e → e.kind σ.thead ≠ .leaf) :
    σ'.Mild G := by
  induction hl with
  | quiet => exact h
  | link log hl' hw hl ht hs hn _ hp hok ih =>
    intro l k e he hk
    replace he := (hw.linked_slots ht hs hp hok hn l k).symm.trans he
    split at he
    next heq =>
      obtain ⟨rfl, rfl⟩ := heq
      cases he
      have hmild := ih _ _ _ hs (fun hleaf => by
        rw [hl'.thead] at hleaf
        exact hno _ hl _ (hl'.leaf_of hs hleaf) hleaf)
      exact hmild
    next =>
      split at he
      · cases he
        exact ⟨⟨rfl, rfl, rfl⟩, fun h => by cases h⟩
      · exact ih l k e he hk

theorem mapStep (h : σ.Mild G) (hp : σ.Passable m va L) (hprot : Accepted prot)
    (hs : MapStep m L va pa prot σ r σ') : σ'.Mild G := by
  have hno : ∀ l < L, ∀ e, σ.slots l (m.key va l) = some e → e.kind σ.thead ≠ .leaf :=
    fun l hl e hs => (hp l hl e hs).1
  cases hs with
  | noMemory hl => exact h.links hl hno
  | already => exact h
  | @installed q σ₁ e log hl hw ht hs hv =>
    have hkind : (e.leaf σ.variant pa prot).kind σ₁.thead = .leaf := by
      rw [hl.thead]
      exact e.leaf_kind σ.variant pa prot hprot
    intro l k e' hs' hk
    rcases layout.slot_of_write hw.tree ht (Pte.next_of_leaf hkind) hs' with ⟨rfl, rfl, rfl⟩ | hs'
    · exact absurd hkind hk
    · exact h.links hl hno l k e' hs' hk

theorem passable (h : σ.Mild G) (hw : Wf m σ) (hL : L ≤ m.getMaxLevel) (hc : m.Canonical va)
    (hfree : σ.translate m va = none) : σ.Passable m va L := by
  intro l hl e hs
  have hkind : e.kind σ.thead ≠ .leaf := by
    apply hw.not_leaf hc hfree (Nat.le_trans (Nat.le_of_lt hl) hL) hs
    exact fun j _ e' p hs' hn => (h j _ _ hs' (Pte.not_leaf_of_next hn)).1
  exact ⟨hkind, fun _ => (h l _ e hs hkind).1⟩

theorem gAbove (h : σ.Mild G) (hp : σ.Passable m va L)
    (hg : Slots.gAbove m σ.slots va L = true) : G (m.key va 0) := by
  induction L with
  | zero => cases hg
  | succ L ih =>
    unfold Slots.gAbove at hg
    rw [Bool.or_eq_true] at hg
    rcases hg with hg | hg
    · exact ih (hp.mono (Nat.le_succ L)) hg
    · unfold Slots.g at hg
      cases hs : σ.slots L (m.key va L) with
      | none =>
        rw [show σ.slots L (m.idx L (m.low va)) = none from hs] at hg
        cases hg
      | some e =>
        rw [show σ.slots L (m.idx L (m.low va)) = some e from hs] at hg
        obtain ⟨rfl, hG⟩ := (h L _ e hs (hp L (Nat.lt_succ_self L) e hs).1).2 hg
        exact hG

end State.Mild

theorem Block.pa_add {b : Block m} (hoff : b.pa - b.va = δ) (hva : b.Covers va) :
    b.pa.toNat % 2 ^ 56 + va.toNat % b.len = (va + δ).toNat % 2 ^ 56 := by
  have hshift : m.shift b.level ≤ 48 := Mode.shift_lt b.level_le
  obtain ⟨c, hc⟩ := b.va_dvd
  obtain ⟨d, hd⟩ := b.pa_dvd
  obtain ⟨y, hy⟩ : ∃ y, va.toNat = b.va.toNat + y := ⟨_, (Nat.add_sub_cancel' hva.1).symm⟩
  have hlt : y < 2 ^ m.shift b.level := by
    have := hva.2
    unfold Block.start Block.len at this
    omega
  have hmod : va.toNat % b.len = y := by
    unfold Block.len
    rw [hy, hc, Nat.mul_add_mod, Nat.mod_eq_of_lt hlt]
  have hsum : va + δ = b.pa + BitVec.ofNat 64 y := by
    rw [← hoff, show va = b.va + BitVec.ofNat 64 y by
      rw [← BitVec.toNat_inj, BitVec.toNat_add, BitVec.toNat_ofNat]
      have := va.isLt
      omega]
    generalize BitVec.ofNat 64 y = x
    bv_omega
  -- the block does not cross a multiple of `2 ^ 56`
  obtain ⟨f, hf⟩ : 2 ^ m.shift b.level ∣ 2 ^ 56 := Nat.pow_dvd_pow 2 (by omega)
  have hfit : d % f * 2 ^ m.shift b.level + y < 2 ^ 56 := by
    have hfpos : 0 < f := by
      rcases Nat.eq_zero_or_pos f with rfl | h
      · simp at hf
      · exact h
    have := Nat.mod_lt d hfpos
    calc d % f * 2 ^ m.shift b.level + y
        < d % f * 2 ^ m.shift b.level + 2 ^ m.shift b.level := by omega
      _ = (d % f + 1) * 2 ^ m.shift b.level := by rw [Nat.add_mul, Nat.one_mul]
      _ ≤ f * 2 ^ m.shift b.level := Nat.mul_le_mul_right _ this
      _ = 2 ^ 56 := by rw [hf, Nat.mul_comm]
  have hpa : b.pa.toNat % 2 ^ 56 = d % f * 2 ^ m.shift b.level := by
    rw [hd, hf, Nat.mul_mod_mul_left, Nat.mul_comm]
  rw [hmod, hsum, BitVec.toNat_add, BitVec.toNat_ofNat]
  omega

theorem grant_of_imp (h : g = true → prot &&& PROT_G ≠ 0) (x : Nat) :
    grant x prot g = grant x prot false := by
  unfold grant
  cases g with
  | false => rfl
  | true => simp only [Bool.true_or, Bool.false_or, decide_eq_true (h rfl)]

inductive Mapped (m : Mode) (prot : BitVec 32) : List (Block m) → State → State → Prop
  | nil {σ : State} : Mapped m prot [] σ σ
  | cons {b : Block m} {σ σ₁ σ' : State} :
      MapStep m b.level b.va b.pa prot σ (.ok 0) σ₁ → Mapped m prot bs σ₁ σ' →
      Mapped m prot (b :: bs) σ σ'

theorem Mapped.thead {bs : List (Block m)} (h : Mapped m prot bs σ σ') : σ'.thead = σ.thead := by
  induction h with
  | nil => rfl
  | cons h _ ih => exact ih.trans h.thead

theorem Mapped.root_frame {bs : List (Block m)} (h : Mapped m prot bs σ σ')
    (hk : ∀ b ∈ bs, m.key b.va 0 ≠ k) : σ'.slots 0 k = σ.slots 0 k := by
  induction h with
  | nil => rfl
  | cons h _ ih =>
    rw [ih (fun b hb => hk b (List.mem_cons_of_mem _ hb)), h.root_frame (hk _ List.mem_cons_self)]

theorem Mapped.root_leaf {bs : List (Block m)} (h : Mapped m prot bs σ σ') (hprot : Accepted prot)
    (ht : Tiles Block.start Block.len a e bs)
    (hc : ∀ va : Addr, a ≤ va.toNat → va.toNat < e → m.Canonical va)
    (hroot : ∀ b ∈ bs, b.level = 0) {b : Block m} (hb : b ∈ bs) :
    ∃ e, σ'.slots 0 (m.key b.va 0) = some e ∧ e.kind σ.thead = .leaf := by
  induction h generalizing a with
  | nil => cases hb
  | @cons bs b' σ σ₁ σ' h hmap ih =>
    cases ht with
    | cons ht =>
      have hle := ht.le
      rcases List.mem_cons.mp hb with rfl | hb
      · obtain ⟨e', hs, hk⟩ := h.installed_leaf hprot rfl
        rw [hroot b List.mem_cons_self] at hs
        refine ⟨e', ?_, hk⟩
        rw [hmap.root_frame, hs]
        -- a later block with this key would start inside the first one
        intro b'' hb'' hkey
        have hcb : ∀ va, b.Covers va → m.Canonical va := fun va hva =>
          hc va hva.1 (Nat.lt_of_lt_of_le hva.2 hle)
        have hge := ht.start_ge hb''
        have hlt := Nat.lt_of_lt_of_le b''.covers_self.2 (ht.end_le hb'')
        have hcov := (Block.covers_iff hcb b''.va).mp
          ⟨hc b''.va (Nat.le_trans (Nat.le_add_right _ _) hge) hlt, by
            rw [hroot b List.mem_cons_self]; exact hkey⟩
        exact Nat.not_lt.mpr hge hcov.2
      · rw [← h.thead]
        exact ih ht (fun va h1 h2 => hc va (Nat.le_trans (Nat.le_add_right _ _) h1) h2)
          (fun b hb => hroot b (List.mem_cons_of_mem _ hb)) hb

structure Ready (prot : BitVec 32) (J : State → Prop) (b : Block m) : Prop where
  passable {σ : State} {va : Addr} : Good m σ → J σ → b.Covers va → σ.translate m va = none →
    σ.Passable m va b.level
  global {σ : State} {va : Addr} : J σ → b.Covers va → σ.Passable m va b.level →
    Slots.gAbove m σ.slots va b.level = true → prot &&& PROT_G ≠ 0
  step {σ σ' : State} {r : Except Trap Int} : J σ → σ.Passable m b.va b.level →
    MapStep m b.level b.va b.pa prot σ r σ' → J σ'

theorem State.Mild.ready {b : Block m} (hprot : Accepted prot)
    (hc : ∀ va, b.Covers va → m.Canonical va)
    (hG : ∀ va, b.Covers va → G (m.key va 0) → prot &&& PROT_G ≠ 0) :
    Ready prot (State.Mild G) b where
  passable hg hm hva hfree := hm.passable hg.wf b.level_le (hc _ hva) hfree
  global hm hva hp hg := hG _ hva (hm.gAbove hp hg)
  step hm hp hs := hm.mapStep hp hprot hs

theorem Ready.root {b : Block m} (h : b.level = 0) : Ready prot (fun _ => True) b where
  passable _ _ _ _ := fun l hl => absurd (h ▸ hl) (Nat.not_lt_zero l)
  global _ _ _ hg := by
    rw [h] at hg
    cases hg
  step _ _ _ := trivial

theorem run_exact {bs : List (Block m)} {J : State → Prop} (hg : Good m σ) (hj : J σ)
    (ht : Tiles Block.start Block.len a e bs)
    (hc : ∀ va : Addr, a ≤ va.toNat → va.toNat < e → m.Canonical va) (hprot : Accepted prot)
    (hfree : ∀ va : Addr, a ≤ va.toNat → va.toNat < e → σ.translate m va = none)
    (hready : ∀ b ∈ bs, Ready prot J b) (hoff : ∀ b ∈ bs, b.pa - b.va = δ)
    (h : (Script.run (m.mapOp prot) bs).exec σ = (r, σ')) :
    r = .error .noMemory ∨ (r = .ok 0 ∧ Good m σ' ∧ J σ' ∧ Mapped m prot bs σ σ' ∧
      ∀ va, σ'.translate m va =
        if a ≤ va.toNat ∧ va.toNat < e then some (grant ((va + δ).toNat % 2 ^ 56) prot false)
        else σ.translate m va) := by
  induction ht generalizing σ with
  | nil =>
    cases h
    refine Or.inr ⟨rfl, hg, hj, .nil, fun va => (if_neg ?_).symm⟩
    omega
  | @cons b e bs ht ih =>
    have hle := ht.le
    have hb := hready b List.mem_cons_self
    have hin {va : Addr} (hva : b.Covers va) : b.start ≤ va.toNat ∧ va.toNat < e :=
      ⟨hva.1, Nat.lt_of_lt_of_le hva.2 hle⟩
    have hpass {va : Addr} (hva : b.Covers va) : σ.Passable m va b.level :=
      hb.passable hg hj hva (hfree va (hin hva).1 (hin hva).2)
    obtain ⟨r₁, σ₁, hex, hstep, hcase⟩ := mapOp_space hg (hpass b.covers_self) hprot
      (fun va hva => hc va (hin hva).1 (hin hva).2)
    have hj₁ := hb.step hj (hpass b.covers_self) hstep
    rcases hcase with rfl | ⟨-, -, -, va, hva, hsome⟩ | ⟨rfl, hg₁, -, htr⟩
    · cases (Script.exec_run_error hex).symm.trans h
      exact Or.inl rfl
    · rw [hfree va (hin hva).1 (hin hva).2] at hsome
      cases hsome
    rw [Script.exec_run_next hex] at h
    have hrest {va : Addr} (h1 : b.start + b.len ≤ va.toNat) : b.start ≤ va.toNat :=
      Nat.le_trans (Nat.le_add_right _ _) h1
    have hafter : ∀ va : Addr, b.start + b.len ≤ va.toNat → va.toNat < e →
        σ₁.translate m va = none := by
      intro va h1 h2
      rw [htr, if_neg (fun hb => Nat.not_lt.mpr h1 hb.2)]
      exact hfree va (hrest h1) h2
    rcases ih hg₁ hj₁ (fun va h1 h2 => hc va (hrest h1) h2) hafter
        (fun b' hb' => hready b' (List.mem_cons_of_mem _ hb'))
        (fun b' hb' => hoff b' (List.mem_cons_of_mem _ hb')) h
      with rfl | ⟨rfl, hg', hj', hmap, htr'⟩
    · exact Or.inl rfl
    refine Or.inr ⟨rfl, hg', hj', .cons hstep hmap, fun va => ?_⟩
    rw [htr', htr]
    by_cases hva : b.Covers va
    · rw [if_neg (fun h => Nat.not_lt.mpr h.1 hva.2), if_pos hva, if_pos (hin hva),
        Block.pa_add (hoff b List.mem_cons_self) hva, grant_of_imp]
      exact hb.global hj hva (hpass hva)
    · rw [if_neg hva]
      refine if_congr ?_ rfl rfl
      unfold Block.Covers at hva
      omega

theorem map_free {J : State → Prop} (hg : Good m σ) (hj : J σ) (hargs : MapArgs v p s prot)
    (hhalf : m.InHalf v s) (hfree : ∀ va, InRange v s va → σ.translate m va = none)
    (hready : ∀ b ∈ m.plan (s.toNat / 4096) s.toNat v p, Ready prot J b)
    (h : (m.map v p s prot).exec σ = (r, σ')) :
    r = .error .noMemory ∨ (r = .ok 0 ∧ Good m σ' ∧ J σ' ∧
      Mapped m prot (m.plan (s.toNat / 4096) s.toNat v p) σ σ' ∧
      ∀ va, σ'.translate m va =
        if InRange v s va then some (grant ((va + (p - v)).toNat % 2 ^ 56) prot false)
        else σ.translate m va) := by
  rw [Mode.map_eq hargs] at h
  exact run_exact hg hj hargs.tiles (fun va h1 h2 => hhalf.canonical ⟨h1, h2⟩) hargs.accepted
    (fun va h1 h2 => hfree va ⟨h1, h2⟩) hready (fun b hb => Mode.plan_offset hb) h

abbrev State.Pristine (σ : State) : Prop := σ.Mild fun _ => False

theorem State.Pristine.ready (hargs : MapArgs v p s prot) (hhalf : m.InHalf v s) :
    ∀ b ∈ m.plan (s.toNat / 4096) s.toNat v p, Ready prot State.Pristine b := by
  intro b hb
  refine State.Mild.ready hargs.accepted ?_ (fun _ _ h => h.elim)
  exact fun va hva => hhalf.canonical (hargs.covers_inRange hb hva)

theorem Boot.pristine (hb : Boot σ) (h : (m.new asid variant).exec σ = (.ok (), σ₀)) :
    σ₀.Pristine := by
  intro l k e hs _
  obtain ⟨-, rfl⟩ := (hb.new h).2 l k e hs
  exact ⟨⟨rfl, rfl, rfl⟩, fun h => by cases h⟩

theorem Boot.unmapped (hb : Boot σ) (h : (m.new asid variant).exec σ = (.ok (), σ₀)) (va : Addr) :
    σ₀.translate m va = none := by
  cases ht : σ₀.translate m va with
  | none => rfl
  | some t =>
    obtain ⟨l, -, -, e, hs, hk, -⟩ := State.translate_some (hb.new h).1.satp ht
    obtain ⟨-, rfl⟩ := (hb.new h).2 _ _ _ hs
    cases (Pte.kind_of_not_v rfl).symm.trans hk

structure Request where
  vaddr : Addr
  paddr : Addr
  size : Addr
  prot : BitVec 32

namespace Request

def exec (m : Mode) (q : Request) : MmuM Int := m.map q.vaddr q.paddr q.size q.prot

def Mem (q : Request) (va : Addr) : Prop := InRange q.vaddr q.size va

instance {q : Request} : Decidable (q.Mem va) := inferInstanceAs (Decidable (InRange _ _ _))

structure Ok (m : Mode) (q : Request) : Prop where
  args : MapArgs q.vaddr q.paddr q.size q.prot
  pos : 0 < q.size.toNat
  half : m.InHalf q.vaddr q.size
  phys : q.paddr.toNat + q.size.toNat ≤ 2 ^ 56

def Disjoint (q q' : Request) : Prop := ∀ va, ¬ (q.Mem va ∧ q'.Mem va)

def translation (q : Request) (va : Addr) : Translation :=
  grant (q.paddr.toNat + (va.toNat - q.vaddr.toNat)) q.prot false

end Request

namespace Request

/-- What the table makes of it: the physical address as far as the entry can hold it. -/
def granted (q : Request) (va : Addr) : Translation :=
  grant ((va + (q.paddr - q.vaddr)).toNat % 2 ^ 56) q.prot false

def Rooted (m : Mode) (q : Request) : Prop :=
  2 ^ m.shift 0 ∣ q.vaddr.toNat ∧ 2 ^ m.shift 0 ∣ q.size.toNat ∧ 2 ^ m.shift 0 ∣ q.paddr.toNat

def Args (q : Request) : Prop := MapArgs q.vaddr q.paddr q.size q.prot

theorem granted_eq {q : Request} (hphys : q.paddr.toNat + q.size.toNat ≤ 2 ^ 56) (hva : q.Mem va) :
    q.granted va = q.translation va := by
  obtain ⟨hle, hlt⟩ := hva
  have hva := va.isLt
  unfold Request.granted Request.translation
  congr 1
  rw [BitVec.toNat_add, BitVec.toNat_sub]
  omega

theorem root_block {q : Request} (hv : 2 ^ m.shift 0 ∣ q.vaddr.toNat)
    (hs : 2 ^ m.shift 0 ∣ q.size.toNat) (hc : m.Canonical va) (hc' : m.Canonical va')
    (hva : q.Mem va) (hk : m.key va' 0 = m.key va 0) : q.Mem va' := by
  rw [Mode.key_eq_iff (Nat.zero_le _) hc hc'] at hk
  obtain ⟨c, hv⟩ := hv
  obtain ⟨d, hs⟩ := hs
  obtain ⟨hle, hlt⟩ := hva
  have hpos := Nat.two_pow_pos (m.shift 0)
  have hend : q.vaddr.toNat + q.size.toNat = (c + d) * 2 ^ m.shift 0 := by
    rw [hv, hs, ← Nat.mul_add, Nat.mul_comm]
  constructor
  · rw [hv, Nat.mul_comm, ← Nat.le_div_iff_mul_le hpos] at hle ⊢
    exact hk ▸ hle
  · rw [hend, ← Nat.div_lt_iff_lt_mul hpos] at hlt ⊢
    exact hk ▸ hlt

end Request

structure Served (m : Mode) (qs : List Request) (σ σ' : State) : Prop where
  good : Good m σ'
  pristine : σ'.Pristine
  thead : σ'.thead = σ.thead
  mapped : ∀ q ∈ qs, ∀ va, q.Mem va → σ'.translate m va = some (q.granted va)
  other : ∀ va, (∀ q ∈ qs, ¬ q.Mem va) → σ'.translate m va = σ.translate m va
  frame : ∀ k, (∀ q ∈ qs, ∀ va, q.Mem va → m.key va 0 ≠ k) → σ'.slots 0 k = σ.slots 0 k
  root : ∀ q ∈ qs, q.Rooted m → ∀ va, q.Mem va →
    ∃ e, σ'.slots 0 (m.key va 0) = some e ∧ e.kind σ'.thead = .leaf

theorem Served.nil (hg : Good m σ) (hp : σ.Pristine) : Served m [] σ σ where
  good := hg
  pristine := hp
  thead := rfl
  mapped _ hq := absurd hq List.not_mem_nil
  other _ _ := rfl
  frame _ _ := rfl
  root _ hq := absurd hq List.not_mem_nil

theorem Served.cons {q : Request} {qs : List Request} (h : Served m [q] σ σ₁)
    (h' : Served m qs σ₁ σ') (hhalf : ∀ q' ∈ q :: qs, m.InHalf q'.vaddr q'.size)
    (hdisj : ∀ q' ∈ qs, q.Disjoint q') : Served m (q :: qs) σ σ' where
  good := h'.good
  pristine := h'.pristine
  thead := h'.thead.trans h.thead
  mapped q' hq' va hva := by
    rcases List.mem_cons.mp hq' with rfl | hq'
    · rw [h'.other va (fun q'' hq'' hva'' => hdisj q'' hq'' va ⟨hva, hva''⟩)]
      exact h.mapped q' List.mem_cons_self va hva
    · exact h'.mapped q' hq' va hva
  other va hva := by
    rw [h'.other va (fun q' hq' => hva q' (List.mem_cons_of_mem _ hq'))]
    exact h.other va (fun q' hq' => hva q' (List.mem_singleton.mp hq' ▸ List.mem_cons_self))
  frame k hk := by
    rw [h'.frame k (fun q' hq' => hk q' (List.mem_cons_of_mem _ hq'))]
    exact h.frame k (fun q' hq' => hk q' (List.mem_singleton.mp hq' ▸ List.mem_cons_self))
  root q' hq' hr va hva := by
    rcases List.mem_cons.mp hq' with rfl | hq'
    · obtain ⟨e, hs, hk⟩ := h.root q' List.mem_cons_self hr va hva
      refine ⟨e, ?_, h'.thead ▸ hk⟩
      rw [h'.frame, hs]
      intro q'' hq'' va'' hva'' hkey
      have hc := (hhalf q' List.mem_cons_self).canonical hva
      have hc'' := (hhalf q'' (List.mem_cons_of_mem _ hq'')).canonical hva''
      exact hdisj q'' hq'' va'' ⟨Request.root_block hr.1 hr.2.1 hc hc'' hva hkey, hva''⟩
    · exact h'.root q' hq' hr va hva

theorem serve_one {q : Request} (hg : Good m σ) (hp : σ.Pristine) (hargs : q.Args ∨ q.size = 0)
    (hhalf : m.InHalf q.vaddr q.size) (hfree : ∀ va, q.Mem va → σ.translate m va = none)
    (h : (q.exec m).exec σ = (r, σ')) :
    r = .error .noMemory ∨ ∃ rc, r = .ok rc ∧ (q.Args → rc = 0) ∧ Served m [q] σ σ' := by
  by_cases ha : q.Args
  · rcases map_free hg hp ha hhalf hfree (State.Pristine.ready ha hhalf) h with
      rfl | ⟨rfl, hg', hp', hmap, htr⟩
    · exact Or.inl rfl
    have hcov {b : Block m} (hb : b ∈ m.plan (q.size.toNat / 4096) q.size.toNat q.vaddr q.paddr) :
        q.Mem b.va := MapArgs.covers_inRange ha hb b.covers_self
    refine Or.inr ⟨0, rfl, fun _ => rfl, hg', hp', hmap.thead, ?_, ?_, ?_, ?_⟩
    · intro q' hq' va hva
      cases List.mem_singleton.mp hq'
      exact (htr va).trans (if_pos hva)
    · intro va hva
      exact (htr va).trans (if_neg (hva q List.mem_cons_self))
    · intro k hk
      exact hmap.root_frame (fun b hb => hk q List.mem_cons_self b.va (hcov hb))
    · intro q' hq' hr va hva
      cases List.mem_singleton.mp hq'
      have hlevel : ∀ b ∈ m.plan (q.size.toNat / 4096) q.size.toNat q.vaddr q.paddr, b.level = 0 :=
        fun b hb => Mode.plan_root hr.1 hr.2.2 hr.2.1 hb
      obtain ⟨b, hb, hbva⟩ := (MapArgs.tiles (m := m) ha).mem_iff.mp hva
      have hcb : ∀ va, b.Covers va → m.Canonical va := fun va hva =>
        hhalf.canonical (MapArgs.covers_inRange ha hb hva)
      have hkey := ((Block.covers_iff hcb va).mpr hbva).2
      rw [hlevel b hb] at hkey
      rw [hkey, hmap.thead]
      exact hmap.root_leaf (MapArgs.accepted ha) (MapArgs.tiles ha)
        (fun va h1 h2 => hhalf.canonical ⟨h1, h2⟩) hlevel hb
  · obtain ⟨rc, hrc, -⟩ := Mode.map_rejected (m := m) ha
    have h0 := hargs.resolve_left ha
    have hnone : ∀ va, ¬ q.Mem va := by
      rintro va ⟨hle, hlt⟩
      rw [h0] at hlt
      exact Nat.not_lt.mpr hle hlt
    change (m.map q.vaddr q.paddr q.size q.prot).exec σ = _ at h
    rw [hrc] at h
    cases h
    refine Or.inr ⟨rc, rfl, fun h => absurd h ha, hg, hp, rfl, ?_, fun _ _ => rfl, fun _ _ => rfl,
      ?_⟩
    · intro q' hq' va hva
      cases List.mem_singleton.mp hq'
      exact absurd hva (hnone va)
    · intro q' hq' _ va hva
      cases List.mem_singleton.mp hq'
      exact absurd hva (hnone va)

theorem runAll_served {qs : List Request} (hg : Good m σ) (hp : σ.Pristine)
    (hargs : ∀ q ∈ qs, q.Args ∨ q.size = 0) (hhalf : ∀ q ∈ qs, m.InHalf q.vaddr q.size)
    (hdisj : qs.Pairwise Request.Disjoint)
    (hfree : ∀ q ∈ qs, ∀ va, q.Mem va → σ.translate m va = none)
    (h : (Script.runAll (Request.exec m) qs).exec σ = (r, σ')) :
    r = .error .noMemory ∨ ∃ rcs, r = .ok rcs ∧
      ((∀ q ∈ qs, q.Args) → rcs = qs.map fun _ => 0) ∧ Served m qs σ σ' := by
  induction qs generalizing σ r σ' with
  | nil =>
    cases h
    exact Or.inr ⟨[], rfl, fun _ => rfl, .nil hg hp⟩
  | cons q qs ih =>
    rw [List.pairwise_cons] at hdisj
    have htail {P : Request → Prop} (hP : ∀ q' ∈ q :: qs, P q') : ∀ q' ∈ qs, P q' :=
      fun q' hq' => hP q' (List.mem_cons_of_mem _ hq')
    cases hex : (q.exec m).exec σ with
    | mk r₁ σ₁ =>
      rcases serve_one hg hp (hargs q List.mem_cons_self) (hhalf q List.mem_cons_self)
        (hfree q List.mem_cons_self) hex with rfl | ⟨rc, rfl, hrc, hone⟩
      · cases (Script.exec_runAll_error hex).symm.trans h
        exact Or.inl rfl
      have hfree₁ : ∀ q' ∈ qs, ∀ va, q'.Mem va → σ₁.translate m va = none := by
        intro q' hq' va hva
        rw [hone.other va, htail hfree q' hq' va hva]
        intro q'' hq'' hva''
        cases List.mem_singleton.mp hq''
        exact hdisj.1 q' hq' va ⟨hva'', hva⟩
      cases hex' : (Script.runAll (Request.exec m) qs).exec σ₁ with
      | mk r₂ σ₂ =>
        rcases ih hone.good hone.pristine (htail hargs) (htail hhalf) hdisj.2 hfree₁ hex' with
          rfl | ⟨rcs, rfl, hrcs, hrest⟩
        · cases (Script.exec_runAll_rest_error hex hex').symm.trans h
          exact Or.inl rfl
        cases (Script.exec_runAll_ok hex hex').symm.trans h
        refine Or.inr ⟨rc :: rcs, rfl, ?_, hone.cons hrest hhalf hdisj.1⟩
        intro hall
        rw [hrc (hall q List.mem_cons_self), hrcs (htail hall)]
        rfl

theorem runAll_args {qs : List Request}
    (h : (Script.runAll (Request.exec m) qs).exec σ = (.ok rcs, σ')) (hzero : ∀ rc ∈ rcs, rc = 0) :
    ∀ q ∈ qs, q.Args ∨ (q.size = 0 ∧ 4096 ∣ q.vaddr.toNat) := by
  induction qs generalizing σ rcs with
  | nil => exact fun q hq => absurd hq List.not_mem_nil
  | cons q qs ih =>
    obtain ⟨rc, rcs', σ₁, rfl, hex, hrest⟩ := Script.exec_runAll_inv h
    intro q' hq'
    rcases List.mem_cons.mp hq' with rfl | hq'
    · by_cases ha : q'.Args
      · exact Or.inl ha
      · obtain ⟨rc', hrc, h0⟩ := Mode.map_rejected (m := m) ha
        unfold Request.exec at hex
        rw [hrc] at hex
        cases hex
        exact Or.inr (h0 (hzero _ List.mem_cons_self))
    · exact ih hrest (fun rc hrc => hzero rc (List.mem_cons_of_mem _ hrc)) q' hq'

/-- From a fresh MMU, disjoint requests all succeed, and afterwards the hardware translates each
range as requested and nothing else. -/
theorem map_exact (hb : Boot σ) (hnew : (m.new asid variant).exec σ = (.ok (), σ₀))
    (qs : List Request) (hok : ∀ q ∈ qs, q.Ok m) (hdisj : qs.Pairwise Request.Disjoint)
    (hrun : (Script.runAll (Request.exec m) qs).exec σ₀ = (r, σ')) (hmem : r ≠ .error .noMemory) :
    r = .ok (qs.map fun _ => 0) ∧
      ∀ va, m.Canonical va →
        (∀ q ∈ qs, q.Mem va → σ'.translate m va = some (q.translation va)) ∧
        ((∀ q ∈ qs, ¬ q.Mem va) → σ'.translate m va = none) := by
  rcases runAll_served (hb.good hnew) (hb.pristine hnew) (fun q hq => Or.inl (hok q hq).args)
    (fun q hq => (hok q hq).half) hdisj (fun _ _ va _ => hb.unmapped hnew va) hrun with
    rfl | ⟨rcs, rfl, hrcs, hserved⟩
  · exact absurd rfl hmem
  rw [hrcs (fun q hq => (hok q hq).args)]
  refine ⟨rfl, fun va _ => ⟨?_, ?_⟩⟩
  · intro q hq hva
    rw [hserved.mapped q hq va hva, Request.granted_eq (hok q hq).phys hva]
  · intro hnone
    rw [hserved.other va hnone, hb.unmapped hnew]

def twoRanges : List Request :=
  [⟨0x1000, 0x5000, 0x2000, 0xB⟩, ⟨0xFFFFFFC000000000, 0, 0x40000000, 0x13⟩]

theorem map_exact_two :
    let run := (Script.runAll (Request.exec .sv39) twoRanges).exec
      ((State.boot [0x1000, 0x2000, 0x3000]).fresh .sv39 0 0 0x1000)
    run.1 = .ok [0, 0] ∧ ∀ va, Mode.sv39.Canonical va →
      (∀ q ∈ twoRanges, q.Mem va → run.2.translate .sv39 va = some (q.translation va)) ∧
      ((∀ q ∈ twoRanges, ¬ q.Mem va) → run.2.translate .sv39 va = none) := by
  have hb := State.boot_boot [0x1000, 0x2000, 0x3000] (by decide) (by decide)
  have hnew := exec_new (m := .sv39) (σ := State.boot [0x1000, 0x2000, 0x3000]) (t := 0x1000)
    (by decide) rfl 0 0
  intro run
  have hrun : (Script.runAll (Request.exec .sv39) twoRanges).exec
      ((State.boot [0x1000, 0x2000, 0x3000]).fresh .sv39 0 0 0x1000) = (run.1, run.2) :=
    Prod.mk.eta.symm
  refine map_exact hb hnew twoRanges ?_ ?_ hrun (by decide +kernel)
  · intro q hq
    rcases List.mem_cons.mp hq with rfl | hq
    · exact ⟨by decide, by decide, by decide, by decide⟩
    · cases List.mem_singleton.mp hq
      exact ⟨by decide, by decide, by decide, by decide⟩
  · refine List.pairwise_pair.mpr ?_
    rintro va ⟨⟨-, h1⟩, ⟨h2, -⟩⟩
    exact Nat.not_lt.mpr h2 (Nat.lt_trans h1 (by decide))

end Abydos.Mmu
