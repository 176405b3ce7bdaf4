import Abydos.Fdt.Nodes

namespace Abydos.Fdt.Blob

open Abydos.Lib

variable {b : Blob} {t : Dt} {n m : Place} {before between post l : List Place} {d fuel : Nat}

def lastAt (d : Nat) (l : List Place) : Int :=
  ((Preorder.parent Place.depth (d + 1) l).map fun p => (p.offset : Int)).getD (-FDT_ERR_INTERNAL)

theorem lastAt_append (d : Nat) (l : List Place) (n : Place) :
    lastAt d (l ++ [n]) = if n.depth = d then (n.offset : Int) else lastAt d l := by
  unfold lastAt
  split
  · rename_i hd
    rw [Preorder.parent_append_of_eq (by rw [hd])]
    rfl
  · rename_i hd
    rw [Preorder.parent_append_of_ne]
    intro a ha
    rw [List.mem_singleton.mp ha]
    omega

theorem Dt.offset_lt (hn : t.nodes = before ++ m :: (between ++ n :: post)) :
    m.offset < n.offset := by
  have horder := t.places_inOrder 0 0 none
  rw [show t.places 0 0 none = before ++ m :: (between ++ n :: post) from hn] at horder
  exact (List.pairwise_cons.mp (List.pairwise_append.mp horder).2.1).1 n (by simp)

theorem Dt.one_le_depth (hn : t.nodes = before ++ m :: (between ++ n :: post)) : 1 ≤ n.depth := by
  obtain ⟨root, others, hnodes, -, -, -, hothers⟩ := t.exists_nodes
  refine (hothers n ?_).1
  rw [hnodes] at hn
  cases before with
  | nil =>
    obtain ⟨-, rfl⟩ := List.cons.inj hn
    simp
  | cons c before =>
    obtain ⟨-, rfl⟩ := List.cons.inj hn
    simp

theorem supernodeLoop_before {target offset depth super x k : Int} (h0 : 0 ≤ offset)
    (hlt : offset < target) (hnext : b.nextNode offset (some depth) = some (x, some k)) :
    b.supernodeLoop target d (fuel + 1) offset depth super =
      b.supernodeLoop target d fuel x k (if depth = d then offset else super) := by
  rw [supernodeLoop, if_pos ⟨h0, Int.le_of_lt hlt⟩, if_neg (Int.ne_of_lt hlt), hnext]
  rfl

theorem Contains.supernodeLoop_eq (h : b.Contains t)
    (hn : t.nodes = before ++ (between ++ n :: post)) (hfuel : between.length < fuel) :
    ∀ m ∈ (between ++ [n]).head?,
      b.supernodeLoop n.offset d fuel m.offset m.depth (lastAt d before) =
        some (if (n.depth : Int) < d then -FDT_ERR_NOTFOUND else lastAt d (before ++ between ++ [n]),
          (n.depth : Int)) := by
  induction between generalizing before fuel with
  | nil =>
    rintro m ⟨⟩
    cases fuel with
    | zero => exact absurd hfuel (Nat.not_lt_zero _)
    | succ fuel =>
      rw [supernodeLoop, if_pos ⟨Int.natCast_nonneg _, Int.le_refl _⟩, if_pos rfl, List.append_nil,
        lastAt_append]
      simp only [Nat.cast_inj]
  | cons c between ih =>
    rintro m ⟨⟩
    cases fuel with
    | zero => exact absurd hfuel (Nat.not_lt_zero _)
    | succ fuel =>
      obtain ⟨x, hx⟩ : ∃ x, (between ++ [n]).head? = some x := by
        cases between with
        | nil => exact ⟨n, rfl⟩
        | cons x between => exact ⟨x, rfl⟩
      obtain ⟨rest, hrest⟩ := List.head?_eq_some_iff.mp hx
      have hnext : t.nodes = before ++ c :: x :: (rest ++ post) := by
        rw [hn, ← List.cons_append (a := x), ← hrest, List.append_assoc]
        rfl
      have hdepth : 1 ≤ x.depth :=
        Dt.one_le_depth (show t.nodes = before ++ c :: ([] ++ x :: (rest ++ post)) from hnext)
      have hfound : b.nextNode c.offset (some c.depth) =
          some ((x.offset : Int), some ((c.depth : Int) + x.depth - c.depth)) :=
        (h.sits hnext).nextNode_found h.accepted h.version (by omega)
      have hk : (c.depth : Int) + x.depth - c.depth = x.depth := by omega
      rw [hk] at hfound
      have hlast : (if (c.depth : Int) = d then (c.offset : Int) else lastAt d before) =
          lastAt d (before ++ [c]) := by
        rw [lastAt_append]
        simp only [Nat.cast_inj]
      rw [supernodeLoop_before (Int.natCast_nonneg _) (by exact_mod_cast Dt.offset_lt hn) hfound,
        hlast, ih (hn.trans (List.append_cons ..)) (Nat.lt_of_succ_lt_succ hfuel) x hx,
        ← List.append_cons]

theorem Contains.exists_root (h : b.Contains t) (hn : t.nodes = before ++ n :: post) :
    ∃ root others, before ++ [n] = root :: others ∧ root.offset = 0 ∧ root.depth = 0 ∧
      root.up = none ∧ ∀ m ∈ others, 1 ≤ m.depth ∧ m.up.isSome := by
  obtain ⟨root, others, hnodes, hoff, hdepth, hup, hothers⟩ := t.exists_nodes
  rw [hn, List.append_cons] at hnodes
  rw [h.first] at hoff
  cases before with
  | nil =>
    obtain ⟨rfl, -⟩ := List.cons.inj hnodes
    exact ⟨n, [], rfl, hoff, hdepth, hup, by simp⟩
  | cons c before =>
    obtain ⟨rfl, rfl⟩ := List.cons.inj hnodes
    exact ⟨c, _, rfl, hoff, hdepth, hup, fun m hm => hothers m (List.mem_append_left post hm)⟩

theorem Contains.supernodeAtdepthOffset_eq (h : b.Contains t)
    (hn : t.nodes = before ++ n :: post) : b.supernodeAtdepthOffset n.offset d =
      some (if (n.depth : Int) < d then -FDT_ERR_NOTFOUND else lastAt d (before ++ [n]),
        (n.depth : Int)) := by
  obtain ⟨root, others, hroot, hoff, hdepth, -⟩ := h.exists_root hn
  have hlen := h.length_lt_fuel
  rw [hn, List.length_append, List.length_cons] at hlen
  have hloop := h.supernodeLoop_eq (d := d) (show t.nodes = [] ++ (before ++ n :: post) from hn)
    (show before.length < b.fuel by omega) root (by rw [hroot]; rfl)
  rw [hoff, hdepth] at hloop
  have hprobe := h.accepted.probe
  rw [supernodeAtdepthOffset, if_neg (by omega), if_neg (by omega)]
  exact hloop

theorem Contains.lastAt_zero (h : b.Contains t) (hn : t.nodes = before ++ n :: post) :
    lastAt 0 (before ++ [n]) = 0 := by
  obtain ⟨root, others, hroot, hoff, hdepth, -, hothers⟩ := h.exists_root hn
  have hparent : Preorder.parent Place.depth 1 ([root] ++ others) = some root := by
    rw [Preorder.parent_append_of_ne fun m hm => by have := (hothers m hm).1; omega]
    change Preorder.parent Place.depth 1 ([] ++ [root]) = some root
    exact Preorder.parent_append_of_eq (by rw [hdepth])
  rw [lastAt, hroot]
  change ((Preorder.parent Place.depth 1 ([root] ++ others)).map _).getD _ = _
  rw [hparent, Option.map_some, hoff]
  rfl

theorem Contains.nodeDepth_eq (h : b.Contains t) (hn : t.nodes = before ++ n :: post) :
    b.nodeDepth n.offset = some (n.depth : Int) := by
  have hzero := h.supernodeAtdepthOffset_eq (d := 0) hn
  rw [h.lastAt_zero hn, if_neg (by omega)] at hzero
  rw [nodeDepth]
  change (b.supernodeAtdepthOffset n.offset (0 : Nat) >>= _) = _
  rw [hzero]
  rfl

theorem Contains.parentOffset_eq (h : b.Contains t) (hn : t.nodes = before ++ n :: post) :
    b.parentOffset n.offset = some ((n.up.map Int.ofNat).getD (-FDT_ERR_NOTFOUND)) := by
  have hprobe := h.accepted.probe
  have hlink : Preorder.Linked Place.depth Place.offset Place.up [] t.nodes :=
    t.places_linked 0 0 none rfl
  rw [hn] at hlink
  have hup := hlink.up_eq
  rw [parentOffset, h.nodeDepth_eq hn, Option.bind_eq_bind, Option.bind_some, if_neg (by omega)]
  cases hd : n.depth with
  | zero =>
    rw [supernodeAtdepthOffset, if_neg (by omega), if_pos (by decide)]
    have hnone : n.up = none := by
      rw [hup, hd, Option.map_eq_none_iff, Preorder.parent, List.find?_eq_none]
      simp
    rw [hnone]
    rfl
  | succ d =>
    have hpred : ((d + 1 : Nat) : Int) - 1 = d := by omega
    obtain ⟨root, others, hroot, -, hdepth, -, hothers⟩ := h.exists_root hn
    have hmem : n ∈ root :: others := hroot ▸ List.mem_append_right before List.mem_cons_self
    have hsome : n.up.isSome := by
      rcases List.mem_cons.mp hmem with rfl | hmem
      · omega
      · exact (hothers n hmem).2
    obtain ⟨p, hp⟩ := Option.isSome_iff_exists.mp hsome
    rw [hpred, h.supernodeAtdepthOffset_eq hn, if_neg (by omega), lastAt_append, if_neg (by omega)]
    rw [hp, hd] at hup
    obtain ⟨q, hq, rfl⟩ := Option.map_eq_some_iff.mp hup.symm
    rw [lastAt, hq, hp]
    rfl

end Abydos.Fdt.Blob
