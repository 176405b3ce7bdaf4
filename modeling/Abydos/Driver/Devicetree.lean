import Abydos.Driver.Probe
import Abydos.Driver.SysRoot
import Abydos.Fdt.Refine

namespace Abydos.Driver

open Abydos.Fdt (Tree)
open Abydos.SysRoot (str stringProp)

def Node.offset : Node → Nat
  | .mk offset _ _ _ => offset

mutual

/-- What is said of a node, and of the nodes below it, is what a tree says of them; `after` is what
memory has after a property. -/
def Node.Shows (t : Tree) (after : Int → String → Str) : Node → Prop
  | .mk offset name compatible subnodes =>
    name = (t.getName offset).map str ∧ compatible = stringProp t after offset "compatible" ∧
      subnodes.map Node.offset = (t.subnodes offset).map Fdt.Node.offset ∧ ShowsAll t after subnodes

def ShowsAll (t : Tree) (after : Int → String → Str) : List Node → Prop
  | [] => True
  | n :: ns => n.Shows t after ∧ ShowsAll t after ns

end

end Abydos.Driver

namespace Abydos.Fdt

open Abydos.Lib
open Abydos.Driver (Str ShowsAll)
open Abydos.SysRoot (str cString stringProp)

def Place.compatible (after : Int → String → Str) (n : Place) : Option Str :=
  (n.props.lookup (raw "compatible")).map (cString (after n.offset "compatible"))

mutual

/-- The nodes as `DriverManager` walks over them. -/
def Dt.device (after : Int → String → Str) (o : Nat) : Dt → Driver.Node
  | .node lead name entries children _ =>
    let n : Place := ⟨o + 4 * lead, 0, none, name, entries⟩
    .mk n.offset (some name) (n.compatible after) (devicesOf after n.inner children)

def devicesOf (after : Int → String → Str) (o : Nat) : List Dt → List Driver.Node
  | [] => []
  | t :: ts => t.device after o :: devicesOf after (o + (encode t.tokens).length) ts

end

variable {after : Int → String → Str} {b : Blob} {t : Dt} {n : Place} {before post : List Place}

section Places

mutual

theorem Dt.device_places (o d : Nat) (up : Option Nat) (above : List Nat) (t : Dt) :
    ((t.device after o).places above).map (fun p => (p.offset, p.name)) =
      (t.places o d up).map fun n => (n.offset, some n.name) := by
  match t with
  | .node lead name entries children trail =>
    exact congrArg _ (devicesOf_places _ (d + 1) (some (o + 4 * lead)) _ children)

theorem devicesOf_places (o d : Nat) (up : Option Nat) (above : List Nat) (ts : List Dt) :
    (Driver.placesOf above (devicesOf after o ts)).map (fun p => (p.offset, p.name)) =
      (placesOf o d up ts).map fun n => (n.offset, some n.name) := by
  match ts with
  | [] => rfl
  | t :: ts =>
    rw [devicesOf, Driver.placesOf, placesOf, List.map_append, List.map_append,
      t.device_places o d up, devicesOf_places _ d up _ ts]

end

theorem Dt.device_nodes (after : Int → String → Str) (t : Dt) :
    ((t.device after 0).places []).map (fun p => (p.offset, p.name)) =
      t.nodes.map fun n => (n.offset, some n.name) :=
  t.device_places 0 0 none []

theorem Dt.device_offsets (after : Int → String → Str) (t : Dt) :
    ((t.device after 0).places []).map Driver.Place.offset = t.nodes.map Place.offset := by
  have hnodes := congrArg (List.map Prod.fst) (t.device_nodes after)
  rw [List.map_map, List.map_map] at hnodes
  exact hnodes

def Dt.fdt (after : Int → String → Str) (t : Dt) : Driver.Fdt where
  root := t.device after 0
  distinct := by
    rw [t.device_offsets, List.nodup_iff_pairwise_ne, List.pairwise_map]
    exact (t.places_inOrder 0 0 none).imp Nat.ne_of_lt

end Places

section Shows

theorem str_text (s : Bytes) : str (text s) = s := by
  rw [str, toList_text, List.map_map]
  refine (List.map_congr_left fun c _ => ?_).trans (List.map_id s)
  rw [Function.comp_apply, toNat_char]
  exact UInt8.ofNat_toNat

theorem placesOf_append_head (o d : Nat) (up : Option Nat) (ts : List Dt)
    (hpost : ∀ n ∈ post.head?, n.depth ≤ d) :
    ∀ n ∈ (placesOf o d up ts ++ post).head?, n.depth ≤ d := by
  match ts with
  | [] => exact hpost
  | .node lead name entries children trail :: ts =>
    rintro n ⟨⟩
    exact Nat.le_refl d

theorem children_placesOf (o d : Nat) (up : Option Nat) (ts : List Dt)
    (hpost : ∀ n ∈ post.head?, n.depth ≤ d) :
    (Preorder.children Place.depth d (placesOf o (d + 1) up ts ++ post)).map Place.offset =
      (devicesOf after o ts).map Driver.Node.offset := by
  match ts with
  | [] =>
    cases post with
    | nil => rfl
    | cons m post => exact congrArg _ (Preorder.children_of_le (hpost m rfl))
  | .node lead name entries children trail :: ts =>
    have hroot : Place.depth ⟨o + 4 * lead, d + 1, up, name, entries⟩ = d + 1 := rfl
    rw [placesOf, Dt.places, List.append_assoc, List.cons_append, Preorder.children_cons hroot,
      Preorder.skip_append, List.map_cons, children_placesOf _ _ _ ts hpost]
    · rfl
    · exact fun m hm => (placesOf_bounds _ _ _ children m hm).2.2
    · exact placesOf_append_head _ _ _ ts fun m hm => Nat.le_succ_of_le (hpost m hm)

mutual

theorem Dt.device_shows (h : b.Written t) (memRsv : List (BitVec 64 × BitVec 64)) (o d : Nat)
    (up : Option Nat) (s : Dt) {before post : List Place}
    (hn : t.nodes = before ++ (s.places o d up ++ post)) (hpost : ∀ m ∈ post.head?, m.depth ≤ d) :
    (s.device after o).Shows (h.tree memRsv) after := by
  match s with
  | .node lead name entries children trail =>
    have hcompatible := h.tree_getprop memRsv hn (raw "compatible")
    rw [show text (raw "compatible") = "compatible" by decide] at hcompatible
    refine ⟨?_, ?_, ?_, ?_⟩
    · rw [Tree.getName, h.node_eq hn]
      exact congrArg some (str_text name).symm
    · rw [stringProp, hcompatible]
      rfl
    · rw [h.tree_subnodes, Dt.filter_up hn, List.map_map]
      exact (children_placesOf _ _ _ children hpost).symm
    · refine devicesOf_shows h memRsv _ (d + 1) _ children (hn.trans (List.append_cons ..)) ?_
      exact fun m hm => Nat.le_succ_of_le (hpost m hm)

theorem devicesOf_shows (h : b.Written t) (memRsv : List (BitVec 64 × BitVec 64)) (o d : Nat)
    (up : Option Nat) (ts : List Dt) {before post : List Place}
    (hn : t.nodes = before ++ (placesOf o d up ts ++ post))
    (hpost : ∀ m ∈ post.head?, m.depth ≤ d) :
    ShowsAll (h.tree memRsv) after (devicesOf after o ts) := by
  match ts with
  | [] => trivial
  | s :: ts =>
    rw [placesOf, List.append_assoc] at hn
    refine ⟨Dt.device_shows h memRsv o d up s hn (placesOf_append_head _ _ _ ts hpost), ?_⟩
    exact devicesOf_shows h memRsv _ d up ts (hn.trans (List.append_assoc ..).symm) hpost

end

theorem Blob.Written.fdt_shows (h : b.Written t) (memRsv : List (BitVec 64 × BitVec 64)) :
    (t.fdt after).root.Shows (h.tree memRsv) after := by
  have hall : t.nodes = [] ++ (t.places 0 0 none ++ []) := (List.append_nil _).symm
  exact Dt.device_shows h memRsv 0 0 none t hall (by simp)

theorem Blob.Written.fdt_getName (h : b.Written t) (memRsv : List (BitVec 64 × BitVec 64))
    (node : Nat) : (t.fdt after).getName node = ((h.tree memRsv).getName node).map str := by
  have hpairs : (t.fdt after).getName node =
      ((((t.device after 0).places []).map fun p => (p.offset, p.name)).find?
        fun q => q.1 = node).bind Prod.snd := by
    rw [List.find?_map, Option.bind_map]
    rfl
  have htree : (h.tree memRsv).getName node =
      (t.nodes.find? fun n => (n.offset : Int) = node).map fun n => text n.name := by
    change ((t.nodes.map Place.node).find? _).map _ = _
    rw [List.find?_map, Option.map_map]
    rfl
  rw [hpairs, t.device_nodes, htree, List.find?_map, Option.bind_map, Option.map_map]
  have hpred : (fun n : Place => decide ((n.offset : Int) = node)) =
      (fun q : Nat × Option Str => decide (q.1 = node)) ∘ fun n => (n.offset, some n.name) := by
    funext n
    exact decide_eq_decide.mpr Int.ofNat_inj
  rw [hpred]
  cases t.nodes.find? _ with
  | none => rfl
  | some n => exact congrArg some (str_text n.name).symm

theorem Blob.Written.markInstalled_eq {W : Type} (h : b.Written t)
    (memRsv : List (BitVec 64 × BitVec 64)) (this : Driver.DrvPtr) (node : Nat)
    (s : SysRoot.State W) :
    (SysRoot.markInstalled (h.tree memRsv) this node).run s =
      let (rc, hdl) := Driver.markInstalled (t.fdt after) node 0 this Driver.DRV_CAP_THIS
        s.drivers._devhdl
      (rc, { s with drivers := { s.drivers with _devhdl := hdl } }) := by
  unfold SysRoot.markInstalled Driver.markInstalled
  rw [h.fdt_getName memRsv]
  cases (h.tree memRsv).getName node <;> rfl

end Shows

end Abydos.Fdt

namespace Abydos.Driver

open Abydos.Fdt (raw)

def board : Fdt := Fdt.Dt.fdt (fun _ _ => []) <|
  -- the nodes are at offsets 0, 8, 24, 56 and 104
  .node 0 [] [] [
    .node 0 (raw "chosen") [] [] 0,
    .node 0 (raw "soc") [.prop 0 (raw "compatible") (raw "simple-bus" ++ [0])] [
      .node 0 (raw "uart@1000") [.prop 0 (raw "compatible") (raw "ns16550a" ++ [0])] [] 0] 0,
    .node 0 (raw "memory@80000000") [] [] 0] 0

def taking (type : DevType) (cap : Int) (wants : Str → Str → Bool) (handler : Int)
    (ms : List Mark) : DriverBase Unit where
  getDeviceType := type
  probe name compatible _ w := (if wants name compatible then cap else 0, w)
  addDevice fdt _ h w := (handler, ms.foldl (Mark.apply fdt) h, w)
  marks _ _ _ _ := ⟨ms, rfl⟩

def boardDrivers : DrvPtr → DriverBase Unit
  | 0 => taking .SYS DRV_CAP_THIS (fun name _ => name = []) 0 [⟨8, 0, 0⟩]
  | 1 => taking .PERIP DRV_CAP_COVER (fun _ compatible => compatible = raw "simple-bus") 7 []
  | _ => taking .CHAR DRV_CAP_THIS (fun _ compatible => compatible = raw "ns16550a") 3 []

def offeredOf (events : List Event) : List (DrvPtr × Nat) := events.filterMap fun
  | .offered drv node _ => some (drv, node)
  | _ => none

def addedOf (events : List Event) : List (DrvPtr × Nat) := events.filterMap fun
  | .added drv node _ => some (drv, node)
  | _ => none

def boardAfter (types : List DevType) : DriverManager Unit :=
  passes board boardDrivers [0, 1, 2] types ⟨fun _ => none, (), []⟩

theorem probing_once_board :
    (boardAfter [.SYS, .PERIP])._devhdl 24 = some ⟨1, DRV_CAP_COVER, 7⟩ ∧
    offeredOf (boardAfter [.SYS, .PERIP, .CHAR]).log =
      [(0, 0), (0, 24), (0, 56), (0, 104), (1, 24), (1, 104), (2, 104), (2, 104)] ∧
    addedOf (boardAfter [.SYS, .PERIP, .CHAR]).log = [(0, 0), (1, 24)] ∧
    (∀ drv node h, .added drv node h ∈ (boardAfter [.SYS, .PERIP, .CHAR]).log → h node = none) ∧
    (∀ drv h, .offered drv 56 h ∈ (boardAfter [.SYS, .PERIP, .CHAR]).log →
      h 24 ≠ some ⟨1, DRV_CAP_COVER, 7⟩) ∧
    ∃ events, (boardAfter [.SYS, .PERIP, .CHAR]).log = (boardAfter [.SYS, .PERIP]).log ++ events ∧
      (board.places.filter (Place.reached (triedOf events))).map Place.offset = [0, 8, 24, 104] := by
  have honce := probing_once board boardDrivers [0, 1, 2] [.SYS, .PERIP, .CHAR]
    ⟨fun _ => none, (), []⟩
  obtain ⟨events, hlog, hadded, hoffered, -⟩ := honce.2
  obtain ⟨last, hlast, htried⟩ := honce.1 .CHAR (boardAfter [.SYS, .PERIP])
  have hall : (boardAfter [.SYS, .PERIP, .CHAR]).log = events := hlog
  rw [hall]
  refine ⟨by decide +kernel, hall ▸ by decide +kernel, hall ▸ by decide +kernel, hadded,
    fun drv h hmem hcov => ?_, last, hall ▸ hlast, ?_⟩
  · have hplace : ⟨56, some (raw "uart@1000"), [24, 0]⟩ ∈ board.places :=
      List.mem_of_getElem? (i := 3) rfl
    have hlt := hoffered drv 56 h hmem _ hplace rfl 24 List.mem_cons_self _ hcov
    exact absurd hlt (by decide)
  · have hboth : (triedOf (boardAfter [.SYS, .PERIP, .CHAR]).log).map Prod.fst =
        (triedOf (boardAfter [.SYS, .PERIP]).log).map Prod.fst ++ [0, 8, 24, 104] := by
      decide +kernel
    rw [show (boardAfter [.SYS, .PERIP, .CHAR]).log = _ from hlast, triedOf_append,
      List.map_append] at hboth
    rw [← htried]
    exact List.append_cancel_left hboth

end Abydos.Driver
