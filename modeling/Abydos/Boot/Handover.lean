import Abydos.Boot.Preloader
import Abydos.Boot.Stacks
import Abydos.Vmm.Spaces

namespace Abydos.Handover

open Abydos.Lib Abydos.Lib.Interleave Abydos.Mmu Abydos.Vmm Abydos.Vmm.Spaces
open Abydos.Boot (Cpu)
open Abydos.Preloader (Image Loaded Direct Window direct)

def mmuType (cpus : List Cpu) : Nat :=
  cpus.foldl (fun mmu_type x => if x.mmu < mmu_type then x.mmu else mmu_type) 0xFF

def modeOfType (mmu_type : Nat) : Option Mode :=
  if mmu_type = 39 then some .sv39
  else if mmu_type = 48 then some .sv48
  else if mmu_type = 57 then some .sv57
  else none

def mmuVariant (vid : BitVec 64) : Int := if vid = 0x5B7 then VARIANT_THEAD_C906 else 0

def lower : Request where
  vaddr := 0xFFFFFFC000000000
  paddr := 0
  size := 2 * 1024 * 1048576
  prot := PROT_R ||| PROT_W ||| PROT_X ||| PROT_G ||| PROT_IO

def upper : Request where
  vaddr := 0xFFFFFFC000000000 + 2 * 1024 * 1048576
  paddr := 2 * 1024 * 1048576
  size := 2 * 1024 * 1048576
  prot := PROT_R ||| PROT_W ||| PROT_X ||| PROT_G

def mapLower4G (m : Mode) (variant : Int) : Prog (Space State) Trap Int := do
  Prog.zoom (fun s => s.mgr.mmu) (fun s mmu => { s with mgr := .new s.globalMaps mmu })
    (m.new (-1) variant)
  modify (addMap lower.vaddr lower.paddr lower.size lower.prot)
  modify (addMap upper.vaddr upper.paddr upper.size upper.prot)
  Vmm.Op.confirm.exec (rv64 m)

structure Hart where
  satp : BitVec 64
  vmm : Space State

def Hart.mmu (s : Hart) : State := s.vmm.mgr.mmu

def satpWord (s : Satp) : BitVec 64 := s.mode ++ s.asid ++ s.ppn

/-- `enable(true)`: `csrw` is what `satp` holds when a word is written over another. -/
def enable (csrw : BitVec 64 → BitVec 64 → BitVec 64) (satp word : BitVec 64) :
    Bool × BitVec 64 :=
  if csrw satp word ≠ word then (false, csrw (csrw satp word) 0) else (true, csrw satp word)

def setupMmu (csrw : BitVec 64 → BitVec 64 → BitVec 64) (cpus : List Cpu) (vid : BitVec 64) :
    Prog Hart Trap Int := do
  let mmu_type := mmuType cpus
  if mmu_type = 0xFF ∨ mmu_type = 32 then return K_EINVAL
  else
    match modeOfType mmu_type with
    | none => return K_ENOTSUPP
    | some m =>
      let rc ← Prog.zoom Hart.vmm (fun s vmm => { s with vmm }) (mapLower4G m (mmuVariant vid))
      if rc < 0 then return K_EFAIL
      else
        let s ← get
        let (ok, satp) := enable csrw s.satp (satpWord s.mmu.satp)
        set { s with satp }
        return if ok then K_OK else K_EFAIL

def Kernel (va : Addr) : Prop :=
  K_VADDR_BASE.toNat ≤ va.toNat ∧ va.toNat < K_VADDR_BASE.toNat + 2 ^ 32

instance : DecidablePred Kernel := fun _ => inferInstanceAs (Decidable (_ ∧ _))

section Choice

variable {cpus : List Cpu} {m : Mode}

theorem foldl_mmuType_le (cpus : List Cpu) (t : Nat) :
    cpus.foldl (fun t x => if x.mmu < t then x.mmu else t) t ≤ t ∧
      ∀ x ∈ cpus, cpus.foldl (fun t x => if x.mmu < t then x.mmu else t) t ≤ x.mmu := by
  induction cpus generalizing t with
  | nil => exact ⟨Nat.le_refl t, nofun⟩
  | cons y cpus ih =>
    obtain ⟨hle, hall⟩ := ih (if y.mmu < t then y.mmu else t)
    rw [List.foldl_cons]
    have hmin : (if y.mmu < t then y.mmu else t) ≤ t ∧
        (if y.mmu < t then y.mmu else t) ≤ y.mmu := by
      split <;> omega
    refine ⟨hle.trans hmin.1, fun x hx => ?_⟩
    rcases List.mem_cons.mp hx with rfl | hx
    · exact hle.trans hmin.2
    · exact hall x hx

theorem foldl_mmuType_mem (cpus : List Cpu) (t : Nat) :
    cpus.foldl (fun t x => if x.mmu < t then x.mmu else t) t = t ∨
      ∃ x ∈ cpus, cpus.foldl (fun t x => if x.mmu < t then x.mmu else t) t = x.mmu := by
  induction cpus generalizing t with
  | nil => exact Or.inl rfl
  | cons y cpus ih =>
    rw [List.foldl_cons]
    rcases ih (if y.mmu < t then y.mmu else t) with h | ⟨x, hx, h⟩
    · rw [h]
      split
      · exact Or.inr ⟨y, List.mem_cons_self, rfl⟩
      · exact Or.inl rfl
    · exact Or.inr ⟨x, List.mem_cons_of_mem y hx, h⟩

theorem mmuType_le (hx : x ∈ cpus) : mmuType cpus ≤ x.mmu := (foldl_mmuType_le cpus 0xFF).2 x hx

theorem sz_of_modeOfType (h : modeOfType t = some m) : m.sz = t := by
  unfold modeOfType at h
  split at h
  · next ht => cases h; exact ht.symm
  split at h
  · next ht => cases h; exact ht.symm
  split at h
  · next ht => cases h; exact ht.symm
  · cases h

def Suited (cpus : List Cpu) : Prop :=
  cpus ≠ [] ∧ ∀ x ∈ cpus, x.mmu = 39 ∨ x.mmu = 48 ∨ x.mmu = 57

theorem Suited.mode (h : Suited cpus) : ∃ m, modeOfType (mmuType cpus) = some m := by
  obtain ⟨hne, hall⟩ := h
  obtain ⟨y, hy⟩ := List.exists_mem_of_ne_nil cpus hne
  rcases foldl_mmuType_mem cpus 0xFF with heq | ⟨x, hx, heq⟩
  · have hle := mmuType_le hy
    unfold mmuType at hle
    have := hall y hy
    omega
  · have hx' := hall x hx
    rw [← heq] at hx'
    unfold mmuType
    rcases hx' with h | h | h <;> rw [h] <;> exact ⟨_, rfl⟩

end Choice

section Table

variable {m : Mode} {pages : List Nat} {variant : Int} {σ : State}

theorem satpWord_toNat (s : Satp) :
    (satpWord s).toNat = (s.mode.toNat * 2 ^ 16 + s.asid.toNat) * 2 ^ 44 + s.ppn.toNat := by
  have happend {n w : Nat} (x : BitVec n) (y : BitVec w) :
      (x ++ y).toNat = x.toNat * 2 ^ w + y.toNat := by
    rw [BitVec.toNat_append, ← Nat.shiftLeft_add_eq_or_of_lt y.isLt, Nat.shiftLeft_eq]
  unfold satpWord
  rw [happend, happend]

theorem translate_satpWord (hmode : σ.satp.mode = BitVec.ofNat 4 m.mmutype) (va : Addr) :
    Preloader.modeOf ((satpWord σ.satp).extractLsb' 60 4) = some m ∧
      Preloader.translate σ.thead σ.mem (satpWord σ.satp) va = σ.translate m va := by
  have hword := satpWord_toNat σ.satp
  have hppn := σ.satp.ppn.isLt
  have hasid := σ.satp.asid.isLt
  have hlt := σ.satp.mode.isLt
  have hm : Preloader.modeOf ((satpWord σ.satp).extractLsb' 60 4) = some m := by
    have : (satpWord σ.satp).extractLsb' 60 4 = BitVec.ofNat 4 m.mmutype := by
      rw [← hmode, ← BitVec.toNat_inj, Word.toNat_extract, hword]
      omega
    rw [this]
    cases m <;> rfl
  have hroot : ((satpWord σ.satp).extractLsb' 0 44).toNat = σ.satp.ppn.toNat := by
    rw [Word.toNat_extract, hword]
    omega
  refine ⟨hm, ?_⟩
  unfold Preloader.translate Preloader.walkFrom State.translate
  simp only [hm, hroot]

theorem lower_ok : lower.Ok m := by
  cases m <;> exact ⟨by decide, by decide, by decide, by decide⟩

theorem upper_ok : upper.Ok m := by
  cases m <;> exact ⟨by decide, by decide, by decide, by decide⟩

theorem lower_mem (va : Addr) : lower.Mem va ↔
    0xFFFFFFC000000000 ≤ va.toNat ∧ va.toNat < 0xFFFFFFC000000000 + 0x80000000 := Iff.rfl

theorem upper_mem (va : Addr) : upper.Mem va ↔
    0xFFFFFFC080000000 ≤ va.toNat ∧ va.toNat < 0xFFFFFFC080000000 + 0x80000000 := Iff.rfl

theorem kernel_iff (va : Addr) : Kernel va ↔
    0xFFFFFFC000000000 ≤ va.toNat ∧ va.toNat < 0xFFFFFFC000000000 + 2 ^ 32 := Iff.rfl

theorem lower_disjoint : lower.Disjoint upper := by
  rintro va ⟨hl, hu⟩
  rw [lower_mem] at hl
  rw [upper_mem] at hu
  omega

theorem lower_translation (hva : lower.Mem va) : lower.translation va = direct va := by
  have hpa : 0 + (va.toNat - 0xFFFFFFC000000000) = va.toNat % 2 ^ 32 := by
    rw [lower_mem] at hva
    omega
  unfold direct
  rw [← hpa]
  rfl

theorem upper_translation (hva : upper.Mem va) : upper.translation va = direct va := by
  have hpa : 0x80000000 + (va.toNat - 0xFFFFFFC080000000) = va.toNat % 2 ^ 32 := by
    rw [upper_mem] at hva
    omega
  unfold direct
  rw [← hpa]
  rfl

theorem inForce_both (hs : Sorted m [lower, upper]) (va : Addr) :
    Entries.inForce [(lower, true), (upper, true)] va =
      if Kernel va then some (direct va) else none := by
  by_cases hl : lower.Mem va
  · have hk : Kernel va := by
      rw [lower_mem] at hl
      rw [kernel_iff]
      omega
    rw [if_pos hk, Entries.inForce_of_mem hs (by simp) hl, lower_translation hl]
  by_cases hu : upper.Mem va
  · have hk : Kernel va := by
      rw [upper_mem] at hu
      rw [kernel_iff]
      omega
    rw [if_pos hk, Entries.inForce_of_mem hs (by simp) hu, upper_translation hu]
  · have hk : ¬ Kernel va := by
      rw [lower_mem] at hl
      rw [upper_mem] at hu
      rw [kernel_iff]
      omega
    rw [if_neg hk, Entries.inForce_eq_none]
    simp [hl, hu]

def blank (mem : Mem) (pages : List Nat) : Space State :=
  ⟨[], ⟨[], (Machine.start mem pages).blank⟩⟩

/-- The table is the kernel's own, in pages of the heap, and maps both halves. -/
structure Mapped (m : Mode) (variant : Int) (mem : Mem) (pages : List Nat) (σ : State) : Prop where
  exact_both : Exact m [(lower, true), (upper, true)] σ
  mode : σ.satp.mode = BitVec.ofNat 4 m.mmutype
  variant_eq : σ.variant = variant
  outside : ∀ x, (∀ p ∈ pages, ¬ InPage p x) → σ.mem x = mem x

theorem Mapped.translate (h : Mapped m variant mem pages σ) (va : Addr) :
    Preloader.translate σ.thead σ.mem (satpWord σ.satp) va =
      if Kernel va then some (direct va) else none := by
  rw [(translate_satpWord h.mode va).2, h.exact_both.translate]
  exact inForce_both h.exact_both.sorted va

theorem mapLower4G_exec (mem : Mem) (hok : ∀ p ∈ pages, PageOk p) (hnd : pages.Nodup)
    (variant : Int) :
    (∃ s, (mapLower4G m variant).exec (blank mem pages) = (.error .noMemory, s)) ∨
      ∃ s, (mapLower4G m variant).exec (blank mem pages) = (.ok 0, s) ∧
        Mapped m variant mem pages s.mgr.mmu := by
  have hb : Boot (Machine.start mem pages).blank :=
    (Machine.refines_start (m := m) mem hok hnd).boot
  cases pages with
  | nil =>
    have hno : (m.new (-1) variant).exec (Machine.start mem []).blank =
        (.error .noMemory, (Machine.start mem []).blank) :=
      Prog.exec_bind_error (exec_alignedMalloc_nil rfl)
    refine Or.inl ⟨blank mem [], Prog.exec_bind_error ?_⟩
    change (((m.new (-1) variant).exec (Machine.start mem []).blank).1, _) = _
    rw [hno]
    rfl
  | cons t rest =>
    have hnew := exec_new (m := m) (σ := (Machine.start mem (t :: rest)).blank)
      (hok t List.mem_cons_self) rfl (-1) variant
    generalize hσ : (Machine.start mem (t :: rest)).blank.fresh m (-1) variant t = σ₁ at hnew
    -- both maps are asked for, in `_maps` and in `_global_maps`
    have hrun : (mapLower4G m variant).exec (blank mem (t :: rest)) =
        (Vmm.Op.confirm.exec (rv64 m)).exec
          ⟨[record (lower, false), record (upper, false)],
            ⟨[record (lower, false), record (upper, false)], σ₁⟩⟩ := by
      have hmade : (Prog.zoom (fun s : Space State => s.mgr.mmu)
          (fun s mmu => { s with mgr := .new s.globalMaps mmu }) (m.new (-1) variant)).exec
            (blank mem (t :: rest)) = (.ok (), ⟨[], .new [] σ₁⟩) := by
        change (((m.new (-1) variant).exec (Machine.start mem (t :: rest)).blank).1, Space.mk []
          (.new [] ((m.new (-1) variant).exec (Machine.start mem (t :: rest)).blank).2)) = _
        rw [hnew]
      exact (Prog.exec_bind_ok hmade).trans rfl
    have hasked : Exact m [(lower, false), (upper, false)] σ₁ := by
      have hfresh : Exact m [] σ₁ :=
        ⟨hb.good hnew, hb.pristine hnew, ⟨nofun, .nil⟩, fun va => hb.unmapped hnew va⟩
      refine (hfresh.ask lower_ok nofun).ask upper_ok fun x hx => ?_
      cases List.mem_singleton.mp hx
      exact lower_disjoint
    rw [hrun]
    rcases Exact.settle [] hasked with ⟨σ', hex⟩ | ⟨σ', hs, hx⟩
    · exact Or.inl ⟨_, exec_confirm_space (exec_confirm_error hex)⟩
    have hf : Framed σ₁ σ' := (keeps_confirmLoop _ _).of_exec hs.exec
    refine Or.inr ⟨_, exec_confirm_space (Vmm.exec_confirm hs.exec), hx, ?_, ?_, fun x hout => ?_⟩
    · exact (congrArg Satp.mode hf.satp).trans (by rw [← hσ]; rfl)
    · exact hf.variant.trans (by rw [← hσ]; rfl)
    -- a table page is the root or has come from the heap
    have hpages : ∀ p ∈ σ'.tables, p ∈ t :: rest := by
      intro p hp
      rcases hf.tables_cases hp with hp | ⟨y, hy, rfl⟩
      · rw [← hσ] at hp
        exact List.mem_singleton.mp hp ▸ List.mem_cons_self
      · rw [← hσ] at hy
        obtain ⟨q, hq, rfl⟩ := List.mem_map.mp (show y ∈ rest.map kva from hy)
        unfold phys
        rw [kva_sub (hok q (List.mem_cons_of_mem t hq)).2.2]
        exact List.mem_cons_of_mem t hq
    refine (hf.mem_eq hx.good.wf fun p hp => hout p (hpages p hp)).trans ?_
    rw [← hσ]
    exact if_neg (hout t List.mem_cons_self)

end Table

section Setup

variable {m : Mode} {pages : List Nat} {mem : Mem} {cpus : List Cpu} {satp vid : BitVec 64}
  {csrw : BitVec 64 → BitVec 64 → BitVec 64}

theorem thead_mmuVariant {σ : State} (h : σ.variant = mmuVariant vid) :
    σ.thead = decide (vid = 0x5B7) := by
  unfold State.thead mmuVariant at *
  rw [h]
  split
  · next hv => simp [hv]
  · next hv =>
    rw [decide_eq_false hv]
    rfl

theorem setupMmu_some (hmode : modeOfType (mmuType cpus) = some m) (mem : Mem)
    (hok : ∀ p ∈ pages, PageOk p) (hnd : pages.Nodup) (satp vid : BitVec 64) :
    (∃ s, (setupMmu csrw cpus vid).exec ⟨satp, blank mem pages⟩ = (.error .noMemory, s)) ∨
      ∃ vmm : Space State, Mapped m (mmuVariant vid) mem pages vmm.mgr.mmu ∧
        (setupMmu csrw cpus vid).exec ⟨satp, blank mem pages⟩ =
          (.ok (if (enable csrw satp (satpWord vmm.mgr.mmu.satp)).1 then K_OK else K_EFAIL),
            ⟨(enable csrw satp (satpWord vmm.mgr.mmu.satp)).2, vmm⟩) := by
  have hne : ¬ (mmuType cpus = 0xFF ∨ mmuType cpus = 32) := by
    have hsz := sz_of_modeOfType hmode
    rw [← hsz]
    cases m <;> decide
  unfold setupMmu
  simp only [if_neg hne, hmode]
  have hzoom {r : Except Trap Int} {s : Space State}
      (hex : (mapLower4G m (mmuVariant vid)).exec (blank mem pages) = (r, s)) :
      (Prog.zoom Hart.vmm (fun s vmm => { s with vmm }) (mapLower4G m (mmuVariant vid))).exec
        ⟨satp, blank mem pages⟩ = (r, ⟨satp, s⟩) := by
    change (((mapLower4G m (mmuVariant vid)).exec (blank mem pages)).1,
      Hart.mk satp ((mapLower4G m (mmuVariant vid)).exec (blank mem pages)).2) = _
    rw [hex]
  rcases mapLower4G_exec (m := m) mem hok hnd (mmuVariant vid) with ⟨s, hex⟩ | ⟨s, hex, hs⟩
  · exact Or.inl ⟨⟨satp, s⟩, Prog.exec_bind_error (hzoom hex)⟩
  · refine Or.inr ⟨s, hs, (Prog.exec_bind_ok (hzoom hex)).trans ?_⟩
    rw [if_neg (by decide)]
    rfl

theorem Mapped.enabled {vmm : Space State} (h : Mapped m (mmuVariant vid) mem pages vmm.mgr.mmu)
    (hok : (enable csrw satp (satpWord vmm.mgr.mmu.satp)).1 = true) :
    Preloader.modeOf ((enable csrw satp (satpWord vmm.mgr.mmu.satp)).2.extractLsb' 60 4) = some m ∧
      ∀ va, Preloader.translate (decide (vid = 0x5B7)) vmm.mgr.mmu.mem
        (enable csrw satp (satpWord vmm.mgr.mmu.satp)).2 va =
          if Kernel va then some (direct va) else none := by
  have hword : (enable csrw satp (satpWord vmm.mgr.mmu.satp)).2 = satpWord vmm.mgr.mmu.satp := by
    unfold enable at hok ⊢
    split at hok
    · cases hok
    · next heq =>
      rw [if_neg heq]
      exact not_not.mp heq
  rw [hword, ← thead_mmuVariant h.variant_eq]
  exact ⟨(translate_satpWord h.mode 0).1, h.translate⟩

end Setup

section Handover

variable {H : Type} [Fintype H] [DecidableEq H] {I : Image} {pgtbl : Fin 4 → BitVec 64}
  {mem mem' : Mem} {pages : List Nat}

theorem Loaded.congr (h : Loaded I pgtbl mem)
    (hmem : ∀ x, InPage I.startup_pgtbl.toNat x → mem' x = mem x) : Loaded I pgtbl mem' := by
  intro k hk
  rw [hmem _ ⟨by omega, by omega⟩]
  exact h k hk

/-- A hart has won and come to `k_boot_sysdev`, where the page of the startup table is still as it
was and not a page of the heap.  Unless the heap has no page left, the set-up returns, with the
startup table in place for the harts that are started later.  If it is fine, `satp` holds a mode
that every CPU has, and the kernel's addresses mean what they meant before, and no others. -/
theorem handover {sbi : Preloader.Sbi} {mem₀ : Mem} {h : H} {satp pc : BitVec 64}
    {c : Config H Preloader.Pc Preloader.Shared} (hcard : Fintype.card H < 2 ^ 32)
    (hzero : ∀ x, InPage I.startup_pgtbl.toNat x → mem₀ x = {})
    (hstart : (mem₀ I.start_addr.toNat).word = I.start)
    (hr : (Preloader.threads H I sbi (decide ((sbi 4).2 = 0x5B7))).ReachesWhen (fun _ _ _ => True)
      ⟨fun _ => .entry, ⟨0, mem₀⟩⟩ c)
    (hh : c.loc h = .start satp pc)
    (hkept : ∀ x, InPage I.startup_pgtbl.toNat x → mem x = c.mem.mem x)
    (hok : ∀ p ∈ pages, PageOk p) (hnd : pages.Nodup) (hheap : I.startup_pgtbl.toNat ∉ pages)
    (csrw : BitVec 64 → BitVec 64 → BitVec 64) (cpus : List Cpu) :
    (∃ s, (setupMmu csrw cpus (sbi 4).2).exec ⟨satp, blank mem pages⟩ = (.error .noMemory, s)) ∨
      ∃ rc s, (setupMmu csrw cpus (sbi 4).2).exec ⟨satp, blank mem pages⟩ = (.ok rc, s) ∧
        (∀ va, Preloader.translate (decide ((sbi 4).2 = 0x5B7)) s.mmu.mem satp va =
          if Window va then some (direct va) else none) ∧
        (rc = K_OK →
          (∃ m, Preloader.modeOf (s.satp.extractLsb' 60 4) = some m ∧ ∀ x ∈ cpus, m.sz ≤ x.mmu) ∧
          ∀ va, Preloader.translate (decide ((sbi 4).2 = 0x5B7)) s.mmu.mem s.satp va =
            if Kernel va then some (direct va) else none) ∧
        (rc ≠ K_OK → rc ≠ K_EFAIL → s = ⟨satp, blank mem pages⟩) ∧
        (Suited cpus → (∀ x y, csrw x y = y) → rc = K_OK) := by
  have hthead : (sbi 4).2 = 0x5B7 → decide ((sbi 4).2 = 0x5B7) = true := fun h => decide_eq_true h
  obtain ⟨rfl, -, hready, -⟩ := (Preloader.Race.of_reaches hcard hzero hstart hthead hr).started hh
  have hloaded : Loaded I sbi.table mem := Loaded.congr hready.loaded hkept
  have hstartup {mem' : Mem} (hmem : ∀ x, (∀ p ∈ pages, ¬ InPage p x) → mem' x = mem x)
      (va : Addr) : Preloader.translate (decide ((sbi 4).2 = 0x5B7)) mem'
        (Preloader.setMmu (I.startup_pgtbl + 1024)) va =
          if Window va then some (direct va) else none := by
    refine Preloader.startup_translate (Loaded.congr hloaded fun x hx => hmem x fun p hp hpx => ?_)
      (Preloader.direct_find hthead _ _) I.inPage va
    exact hheap (InPage.eq (hok p hp).1 I.aligned hpx hx ▸ hp)
  cases hmode : modeOfType (mmuType cpus) with
  | none =>
    -- no MMU that the kernel knows: nothing has been done
    have hunsuited : ¬ Suited cpus := fun hs => by
      obtain ⟨m, hm⟩ := hs.mode
      cases hmode.symm.trans hm
    obtain ⟨rc, hrc, hex⟩ : ∃ rc, rc ≠ K_OK ∧ (setupMmu csrw cpus (sbi 4).2).exec
        ⟨Preloader.setMmu (I.startup_pgtbl + 1024), blank mem pages⟩ = (.ok rc, _) := by
      unfold setupMmu
      simp only [hmode]
      split
      · exact ⟨K_EINVAL, by decide, rfl⟩
      · exact ⟨K_ENOTSUPP, by decide, rfl⟩
    exact Or.inr ⟨rc, _, hex, hstartup fun _ _ => rfl, fun h => absurd h hrc, fun _ _ => rfl,
      fun hs => absurd hs hunsuited⟩
  | some m =>
    rcases setupMmu_some hmode mem hok hnd (Preloader.setMmu (I.startup_pgtbl + 1024))
      (sbi 4).2 with hno | ⟨vmm, hm, hex⟩
    · exact Or.inl hno
    refine Or.inr ⟨_, _, hex, hstartup hm.outside, fun hrc => ?_, fun hne hne' => ?_,
      fun _ hcsr => ?_⟩
    · have hon : (enable csrw (Preloader.setMmu (I.startup_pgtbl + 1024))
          (satpWord vmm.mgr.mmu.satp)).1 = true := by
        by_contra hoff
        rw [if_neg hoff] at hrc
        exact absurd hrc (by decide)
      obtain ⟨hof, htr⟩ := hm.enabled hon
      exact ⟨⟨m, hof, fun x hx => sz_of_modeOfType hmode ▸ mmuType_le hx⟩, htr⟩
    · split at hne
      · exact absurd rfl hne
      · next hoff => exact absurd (if_neg hoff) hne'
    · unfold enable
      rw [if_neg (not_not.mpr (hcsr _ _))]
      rfl

def arrived : Config (Fin 2) Preloader.Pc Preloader.Shared :=
  ((Preloader.threads (Fin 2) Preloader.sample (fun _ => (0, 0)) false).run
    (List.replicate 17 (0, ())) ⟨fun _ => .entry, ⟨0, Preloader.sampleMem⟩⟩).getD
      ⟨fun _ => .entry, ⟨0, Preloader.sampleMem⟩⟩

def mixedCpus : List Cpu := [⟨0, true, 64, 48, []⟩, ⟨1, true, 64, 39, []⟩]

theorem handover_mixedCpus : ∃ satp pc, arrived.loc 0 = .start satp pc ∧
    ∃ s, (setupMmu (fun _ y => y) mixedCpus 0).exec ⟨satp, blank arrived.mem.mem [0x1000]⟩ =
        (.ok K_OK, s) ∧
      ∀ va, Preloader.translate false s.mmu.mem s.satp va =
        if Kernel va then some (direct va) else none := by
  have hsome : ((Preloader.threads (Fin 2) Preloader.sample (fun _ => (0, 0)) false).run
      (List.replicate 17 (0, ())) ⟨fun _ => .entry, ⟨0, Preloader.sampleMem⟩⟩).isSome = true := by
    decide +kernel
  obtain ⟨c, hc⟩ := Option.isSome_iff_exists.mp hsome
  have hrun : arrived = c := by
    unfold arrived
    rw [hc, Option.getD_some]
  have hh : arrived.loc 0 =
      .start (Preloader.setMmu (Preloader.sample.startup_pgtbl + 1024)) Preloader.sample.start := by
    decide +kernel
  refine ⟨_, _, hh, ?_⟩
  have hreach := Threads.ReachesWhen.refl.run (G := fun _ _ _ => True)
    (fun _ _ _ => trivial) (hrun ▸ hc)
  have hpages : ∀ p ∈ [0x1000], PageOk p := by decide
  rcases handover (by decide) Preloader.sampleMem_zero Preloader.sampleMem_start hreach hh
    (fun _ _ => rfl) hpages (by decide) (by decide) (fun _ y => y) mixedCpus with
    ⟨s, hex⟩ | ⟨rc, s, hex, -, hon, -, hsuited⟩
  · have hrc : ((setupMmu (fun _ y => y) mixedCpus 0).exec
        ⟨Preloader.setMmu (Preloader.sample.startup_pgtbl + 1024),
          blank arrived.mem.mem [0x1000]⟩).1 ≠ .error .noMemory := by
      decide +kernel
    exact absurd (congrArg Prod.fst hex) hrc
  · have hok : rc = K_OK := hsuited ⟨nofun, by decide⟩ fun _ _ => rfl
    subst hok
    exact ⟨s, hex, (hon rfl).2⟩

end Handover

end Abydos.Handover
