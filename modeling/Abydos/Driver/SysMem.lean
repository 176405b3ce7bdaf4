import Abydos.Fdt.Bounds

namespace Abydos.SysMem

open Abydos.Fdt

/-- An address and a size, of which nothing is known if they were never stored. -/
abbrev Region := Option (BitVec 64) × Option (BitVec 64)

structure GenericMem where
  _memAvail : List Region
  _memRsv : List Region
  _fdtRsvMemParsed : Bool
  vars : Out

abbrev MemM := StateM GenericMem

section Functions

variable (t : Tree)

def addrSize (node index : Int) : MemM Int := fun g =>
  let (rc, vars) := (getNodeAddrSize t node index true true).run g.vars
  (rc, { g with vars })

def pushAvail : MemM Unit :=
  modify fun g => { g with _memAvail := g._memAvail ++ [(g.vars.addr, g.vars.size)] }

def pushRsv : MemM Unit :=
  modify fun g => { g with _memRsv := g._memRsv ++ [(g.vars.addr, g.vars.size)] }

def rsvLoop : List (BitVec 64 × BitVec 64) → MemM Unit
  | [] => return
  | (address, size) :: rest => do
    modify fun g => { g with vars := { g.vars with addr := some address, size := some size } }
    pushRsv
    rsvLoop rest

def subnodeLoop : List Node → MemM Unit
  | [] => return
  | subnode :: rest => do
    let rc ← addrSize t subnode.offset 0
    if rc ≥ 0 then do
      pushRsv
      subnodeLoop rest
    else subnodeLoop rest

/-- The loop over the entries of a memory node.  It says whether it came to its end. -/
def availLoop (node : Int) : Nat → Int → MemM Bool
  | 0, _ => return false
  | fuel + 1, i => do
    let rc ← addrSize t node i
    if rc ≥ 0 then do
      pushAvail
      availLoop node fuel (i + 1)
    else return true

def availFuel (node : Int) : Nat := ((t.getprop node "reg").getD []).length + 1

def addDevice (node : Int) : MemM Int := do
  modify fun g => { g with vars := .start }
  let g ← get
  if ¬ g._fdtRsvMemParsed then do
    rsvLoop t.memRsv
    modify fun g => { g with _fdtRsvMemParsed := true }
  if t.getName node = some "reserved-memory" then do
    let nodeoffset := t.subnodeOffset 0 "reserved-memory"
    if nodeoffset ≥ 0 then subnodeLoop t (t.subnodes nodeoffset)
  else do
    let _ ← availLoop t node (availFuel t node) 0
  return 0

end Functions

def RecordsEntries (t : Tree) (node : Int) : Prop :=
  ∀ parent n m v, Found t node parent n m v → t.getName node ≠ some "reserved-memory" →
    ∀ g, ((availLoop t node (availFuel t node) 0).run g).1 = true ∧
    ∃ regs, ((addDevice t node).run g).2._memAvail = g._memAvail ++ regs ∧
      regs.length = v.length / (4 * (n + m)) ∧ ∀ i r, regs[i]? = some r →
        r.2 = some (BitVec.ofNat 64 (field v (i * (n + m) + n) m)) ∧
        ∃ a, r.1 = climb t (ancestors t parent) (BitVec.ofNat 64 (field v (i * (n + m)) n)) a

variable {t : Tree} {node parent : Int} {n m i : Nat} {v : Bytes} {g : GenericMem}

def rounds (v : Bytes) (k : Nat) : Nat := (v.length / 4 + k - 1) / k

theorem lt_rounds {k : Nat} (hk : 0 < k) : i < rounds v k ↔ i * k < v.length / 4 := by
  rw [rounds, Nat.lt_iff_add_one_le, Nat.le_div_iff_mul_le hk, Nat.succ_mul]
  omega

theorem firstCell_small (h : i * (n + m) < 2 ^ 31) : firstCell i n m = (i * (n + m) : Nat) := by
  rw [firstCell, ← Nat.cast_add, ← Nat.cast_mul]
  exact Int.bmod_eq_of_le (by omega) (by omega)

theorem run_addrSize (hf : Found t node parent n m v) (h : i * (n + m) < 2 ^ 31) :
    (addrSize t node i).run g = if v.length / 4 ≤ i * (n + m) then (K_EINVAL, g)
      else (0, { g with vars := fetched t node parent (i * (n + m)) n m true true g.vars }) := by
  change (match (getNodeAddrSize t node i true true).run g.vars with
    | (rc, vars) => (rc, { g with vars })) = _
  rw [run_getNodeAddrSize hf (Int.natCast_nonneg i), firstCell_small h,
    sizeT_natCast (by omega), Int.toNat_natCast]
  by_cases hle : v.length / 4 ≤ i * (n + m)
  · rw [if_pos hle, if_pos hle]
  · rw [if_neg hle, if_neg hle]

def EntryAt (t : Tree) (node parent : Int) (n m i : Nat) (r : Region) : Prop :=
  r.2 = some (loaded t node "reg" (i * (n + m) + n) m 0) ∧
    ∃ a, r.1 = climb t (ancestors t parent) (loaded t node "reg" (i * (n + m)) n 0) a

theorem round_small (hf : Found t node parent n m v) (hi : i ≤ rounds v (n + m)) :
    i * (n + m) < 2 ^ 31 := by
  have hone := hf.one_le
  have hn := hf.n_le
  have hm := hf.m_le
  have hlen := Tree.getprop_length hf.reg
  have hle := Nat.mul_le_mul_right (n + m) hi
  have hdiv := Nat.div_mul_le_self (v.length / 4 + (n + m) - 1) (n + m)
  rw [← rounds] at hdiv
  unfold FDT_MAX_NCELLS at hn hm
  omega

theorem run_availLoop (hf : Found t node parent n m v) (fuel i : Nat) (hi : i ≤ rounds v (n + m))
    (hfuel : rounds v (n + m) < i + fuel) (g : GenericMem) :
    ∃ regs vars, (availLoop t node fuel i).run g =
        (true, { g with _memAvail := g._memAvail ++ regs, vars }) ∧
      regs.length = rounds v (n + m) - i ∧
      ∀ j r, regs[j]? = some r → EntryAt t node parent n m (i + j) r := by
  have hone := hf.one_le
  have hk : 0 < n + m := by omega
  induction fuel generalizing i g with
  | zero => omega
  | succ fuel ih =>
    have hrun := run_addrSize hf (round_small hf hi) (g := g)
    by_cases hle : v.length / 4 ≤ i * (n + m)
    · rw [if_pos hle] at hrun
      have hend : ¬ i < rounds v (n + m) := fun h =>
        absurd ((lt_rounds hk).mp h) (Nat.not_lt.mpr hle)
      refine ⟨[], g.vars, ?_, ?_, nofun⟩
      · refine (run_bind hrun).trans ?_
        rw [if_neg (by decide), List.append_nil]
        rfl
      · rw [List.length_nil]
        omega
    · rw [if_neg hle] at hrun
      have hlt : i < rounds v (n + m) := (lt_rounds hk).mpr (Nat.not_le.mp hle)
      generalize hvars : fetched t node parent (i * (n + m)) n m true true g.vars = vars₀ at hrun
      obtain ⟨regs, vars, hrest, hregs, hentry⟩ := ih (i + 1) hlt (by omega)
        { g with _memAvail := g._memAvail ++ [(vars₀.addr, vars₀.size)], vars := vars₀ }
      refine ⟨(vars₀.addr, vars₀.size) :: regs, vars, ?_, ?_, fun j r hr => ?_⟩
      · refine (run_bind hrun).trans ?_
        rw [if_pos (by decide)]
        refine (run_bind rfl).trans (hrest.trans ?_)
        rw [List.append_assoc]
        rfl
      · rw [List.length_cons, hregs]
        omega
      · cases j with
        | zero =>
          cases hr
          rw [← hvars]
          exact ⟨rfl, g.vars.addr, rfl⟩
        | succ j =>
          rw [show i + (j + 1) = i + 1 + j by omega]
          exact hentry j r hr

theorem run_rsvLoop (l : List (BitVec 64 × BitVec 64)) (g : GenericMem) :
    ((rsvLoop l).run g).2._memAvail = g._memAvail := by
  induction l generalizing g with
  | nil => rfl
  | cons x l ih => exact ih _

theorem run_addDevice (h : t.getName node ≠ some "reserved-memory") (g : GenericMem) :
    ∃ g', g'._memAvail = g._memAvail ∧
      ((addDevice t node).run g).2 = ((availLoop t node (availFuel t node) 0).run g').2 := by
  have hget : ∀ f : GenericMem → MemM Int, (do
      modify fun g => { g with vars := .start }
      let g ← get
      f g : MemM Int).run g = (f { g with vars := .start }).run { g with vars := .start } :=
    fun _ => rfl
  unfold addDevice
  simp only [if_neg h]
  rw [hget]
  by_cases hp : g._fdtRsvMemParsed = true
  · refine ⟨{ g with vars := .start }, rfl, ?_⟩
    rw [if_neg (not_not.mpr hp)]
    rfl
  · refine ⟨{ ((rsvLoop t.memRsv).run { g with vars := .start }).2 with _fdtRsvMemParsed := true },
      run_rsvLoop t.memRsv _, ?_⟩
    rw [if_pos hp]
    rfl

theorem dvd_iff_rounds {k : Nat} (hk : 0 < k) :
    rounds v k = v.length / (4 * k) ↔ k ∣ v.length / 4 := by
  rw [← Nat.div_div_eq_div_mul]
  constructor
  · intro h
    have hend : ¬ v.length / 4 / k < rounds v k := by omega
    rw [lt_rounds hk, Nat.not_lt] at hend
    have hle := Nat.div_mul_le_self (v.length / 4) k
    exact ⟨v.length / 4 / k, by rw [Nat.mul_comm]; omega⟩
  · intro hd
    have hmul : v.length / 4 / k * k = v.length / 4 := Nat.div_mul_cancel hd
    refine Nat.le_antisymm ?_ ?_
    · refine Nat.not_lt.mp fun hlt => ?_
      rw [lt_rounds hk] at hlt
      omega
    · refine Nat.not_lt.mp fun hlt => ?_
      have hself := (lt_rounds (v := v) hk).not.mp (Nat.lt_irrefl (rounds v k))
      have hmono := Nat.mul_lt_mul_of_pos_right hlt hk
      omega

theorem rounds_lt_availFuel (hf : Found t node parent n m v) :
    rounds v (n + m) < availFuel t node := by
  have hone := hf.one_le
  rw [availFuel, hf.reg, Option.getD_some]
  refine Nat.not_le.mp fun hle => ?_
  have hlt := (lt_rounds (by omega)).mp hle
  have hmul := Nat.le_mul_of_pos_right v.length (show 0 < n + m by omega)
  omega

theorem recorded (hf : Found t node parent n m v) (hname : t.getName node ≠ some "reserved-memory")
    (g : GenericMem) : ∃ regs, ((addDevice t node).run g).2._memAvail = g._memAvail ++ regs ∧
      regs.length = rounds v (n + m) ∧ ∀ i r, regs[i]? = some r → EntryAt t node parent n m i r := by
  obtain ⟨g', hg', hdev⟩ := run_addDevice hname g
  obtain ⟨regs, vars, hrun, hlen, hentry⟩ := run_availLoop hf (availFuel t node) 0 (Nat.zero_le _)
    ((rounds_lt_availFuel hf).trans_eq (Nat.zero_add _).symm) g'
  refine ⟨regs, ?_, hlen, fun i r hr => ?_⟩
  · rw [hdev, ← hg']
    exact congrArg (fun x => x.2._memAvail) hrun
  · rw [← Nat.zero_add i]
    exact hentry i r hr

theorem recordsEntries_iff (t : Tree) (node : Int) : RecordsEntries t node ↔
    ∀ parent n m v, Found t node parent n m v → t.getName node ≠ some "reserved-memory" →
      n + m ∣ v.length / 4 := by
  constructor
  · intro h parent n m v hf hname
    have hone := hf.one_le
    obtain ⟨-, regs, havail, hlen, -⟩ := h parent n m v hf hname ⟨[], [], false, .start⟩
    obtain ⟨regs', havail', hlen', -⟩ := recorded hf hname ⟨[], [], false, .start⟩
    rw [havail', List.append_cancel_left_eq] at havail
    rw [← dvd_iff_rounds (by omega), ← hlen', havail, hlen]
  · intro h parent n m v hf hname g
    have hone := hf.one_le
    have hdvd := h parent n m v hf hname
    obtain ⟨_, _, hends, -, -⟩ := run_availLoop hf (availFuel t node) 0 (Nat.zero_le _)
      ((rounds_lt_availFuel hf).trans_eq (Nat.zero_add _).symm) g
    obtain ⟨regs, havail, hlen, hentry⟩ := recorded hf hname g
    refine ⟨congrArg Prod.fst hends, regs, havail, ?_, fun i r hr => ?_⟩
    · rw [hlen, dvd_iff_rounds (by omega)]
      exact hdvd
    · obtain ⟨hsize, a, haddr⟩ := hentry i r hr
      have hi : i < rounds v (n + m) := hlen ▸ (List.getElem?_eq_some_iff.mp hr).1
      rw [(dvd_iff_rounds (by omega)).mpr hdvd, ← Nat.div_div_eq_div_mul] at hi
      have hmul := Nat.mul_le_mul_right (n + m) hi
      rw [Nat.div_mul_cancel hdvd, Nat.succ_mul] at hmul
      rw [loaded_field hf (by omega)] at hsize haddr
      exact ⟨hsize, a, haddr⟩

/-- Only complete entries are read, and a memory node gives one region for each of them, exactly if
an entry that a call takes is complete with the first range of every bus the address gets to, and
the property of a memory node has no incomplete entry at its end. -/
theorem only_complete_entries (t : Tree) (node index : Int) :
    (ReadsComplete t node index ∧ RecordsEntries t node) ↔
      ∀ parent n m v, Found t node parent n m v →
        (0 ≤ index → sizeT (firstCell index n m) < v.length / 4 → Complete v index (n + m) ∧
          ∀ p ∈ reached t (ancestors t parent)
            (BitVec.ofNat 64 (field v (index.toNat * (n + m)) n)), RangeComplete t p) ∧
        (t.getName node ≠ some "reserved-memory" → n + m ∣ v.length / 4) := by
  rw [readsComplete_iff, recordsEntries_iff]
  exact ⟨fun h parent n m v hf => ⟨h.1 parent n m v hf, h.2 parent n m v hf⟩,
    fun h => ⟨fun parent n m v hf => (h parent n m v hf).1,
      fun parent n m v hf => (h parent n m v hf).2⟩⟩

def board (reg : Bytes) (h : reg.length < 2 ^ 31) : Tree where
  nodes := [⟨0, "", none, [("#address-cells", [0, 0, 0, 1]), ("#size-cells", [0, 0, 0, 1])]⟩,
    ⟨8, "memory@80000000", some 0, [("reg", reg)]⟩]
  inOrder := by simp
  above := by simp
  short := by
    simp only [List.forall_mem_cons]
    exact ⟨⟨by decide, by decide, nofun⟩, ⟨h, nofun⟩, nofun⟩
  memRsv := []
  beyond := fun _ _ _ => 0

def twoBanks : Bytes := [0x80, 0, 0, 0, 0, 0, 0x10, 0, 0x90, 0, 0, 0, 0, 0, 0x20, 0]

theorem only_complete_entries_two :
    ReadsComplete (board twoBanks (by decide)) 8 1 ∧ RecordsEntries (board twoBanks (by decide)) 8 := by
  have hf : Found (board twoBanks (by decide)) 8 0 1 1 twoBanks :=
    ⟨by decide, by decide +kernel, by decide, by decide +kernel, by decide, by decide,
      by decide +kernel, by decide, by decide +kernel⟩
  refine (only_complete_entries _ _ _).mpr fun parent n m v h => ?_
  obtain ⟨rfl, rfl, rfl, rfl⟩ := hf.unique h
  refine ⟨fun _ _ => ⟨show 4 * ((1 + 1) * 2) ≤ twoBanks.length by decide, fun p hp => ?_⟩,
    fun _ => by decide⟩
  have hreached : reached (board twoBanks (by decide)) (ancestors (board twoBanks (by decide)) 0)
      (BitVec.ofNat 64 (field twoBanks 2 1)) = [0] := by decide +kernel
  obtain rfl := List.mem_singleton.mp (hreached ▸ hp)
  exact fun _ hr => absurd hr (by decide +kernel)

def oneAndAHalf : Bytes := [0x80, 0, 0, 0, 0, 0, 0x10, 0, 0x90, 0, 0, 0]

theorem incomplete_entry_taken :
    ((getNodeAddrSize (board oneAndAHalf (by decide)) 8 1 true true).run .start).1 = 0 ∧
    (⟨8, "reg", 3⟩ : Cell) ∈
      ((getNodeAddrSize (board oneAndAHalf (by decide)) 8 1 true true).run .start).2.reads ∧
    ¬ (ReadsComplete (board oneAndAHalf (by decide)) 8 1 ∧
      RecordsEntries (board oneAndAHalf (by decide)) 8) := by
  refine ⟨by decide +kernel, by decide +kernel, fun h => ?_⟩
  have hf : Found (board oneAndAHalf (by decide)) 8 0 1 1 oneAndAHalf :=
    ⟨by decide, by decide +kernel, by decide, by decide +kernel, by decide, by decide,
      by decide +kernel, by decide, by decide +kernel⟩
  have hdvd := (recordsEntries_iff _ _).mp h.2 0 1 1 oneAndAHalf hf (by decide +kernel)
  exact absurd hdvd (by decide)

end Abydos.SysMem
