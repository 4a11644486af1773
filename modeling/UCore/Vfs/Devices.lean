import UCore.Defs
import UCore.Library.Run
import UCore.Process.Table
import UCore.Vfs.File

/-! # The table of devices

The model of `kern/fs/vfs/vfsdev.c`. The list of devices is a finite map from names: the first entry
with a name is the only one, and no call reaches a device without an inode. `vdev_list_sem` makes a
call one step. The allocator, the mount function and the operations of a file system are arguments
of the calls.
-/

namespace UCore.Devices

open Library Process

abbrev Str := List UInt8

def eTooBig : ℤ := 12
def eNoDev : ℤ := 13
def eBusy : ℤ := 15
def eExists : ℤ := 23

def fsMaxDnameLen : ℕ := 31

/-- The `vfs_dev_t`. -/
structure VfsDev where
  devname : Str
  devnode : Option ℕ
  fs : Option ℕ
  mountable : Bool

inductive Entry
  | vdevList
  | vdevLink (p : ℕ)
deriving DecidableEq

structure State where
  dev : ℕ → VfsDev
  links : Links Entry
  allocated : Finset ℕ

inductive Fault
  /-- The assertion of `vfs_do_add`. -/
  | badNode
  /-- An operation of an inode that is `NULL`. -/
  | nullNode

/-- The number that a call returns, and the inode that it hands back. -/
abbrev Reply := ℤ × Option ℕ

namespace State

variable (s : State)

def setDev (p : ℕ) (d : VfsDev) : State := { s with dev := Function.update s.dev p d }

/-- The devices in the order of a loop over `vdev_list`. -/
def vdevs : List ℕ :=
  (walk s.links .vdevList s.allocated.card .vdevList).filterMap fun
    | .vdevLink p => some p
    | .vdevList => none

def checkDevnameConflict (devname : Str) : List ℕ → Bool
  | [] => true
  | p :: ps => if (s.dev p).devname = devname then false else checkDevnameConflict devname ps

/-- `vfs_do_add`, with the results of `strdup` and of `kmalloc`. -/
def vfsDoAdd (d : VfsDev) (dup : Bool) (vdev : Option ℕ) : Except Fault (Reply × State) :=
  if ¬(d.devnode = none ∧ d.mountable = false ∨ d.devnode ≠ none) then .error .badNode
  else if fsMaxDnameLen < d.devname.length then .ok ((-eTooBig, none), s)
  else if dup = false then .ok ((-eNoMem, none), s)
  else match vdev with
    | none => .ok ((-eNoMem, none), s)
    | some p =>
      if s.checkDevnameConflict d.devname s.vdevs = false then .ok ((-eExists, none), s)
      else .ok ((0, none), { s.setDev p d with
        links := listAdd s.links .vdevList (.vdevLink p)
        allocated := insert p s.allocated })

def vfsAddFs (devname : Str) (fs : ℕ) : Bool → Option ℕ → Except Fault (Reply × State) :=
  s.vfsDoAdd ⟨devname, none, some fs, false⟩

def vfsAddDev (devname : Str) (devnode : ℕ) (mountable : Bool) :
    Bool → Option ℕ → Except Fault (Reply × State) :=
  s.vfsDoAdd ⟨devname, some devnode, none, mountable⟩

def findMount (devname : Str) : List ℕ → Option ℕ
  | [] => none
  | p :: ps => if (s.dev p).mountable ∧ (s.dev p).devname = devname then some p
    else findMount devname ps

def vfsMount (devname : Str) (mountfunc : ℕ → Except ℤ ℕ) : Except Fault (Reply × State) :=
  match s.findMount devname s.vdevs with
  | none => .ok ((-eNoDev, none), s)
  | some p =>
    if (s.dev p).fs ≠ none then .ok ((-eBusy, none), s)
    else match (s.dev p).devnode with
      | none => .error .nullNode
      | some node => match mountfunc node with
        | .error e => .ok ((e, none), s)
        | .ok fs => .ok ((0, none), s.setDev p { s.dev p with fs := some fs })

def vfsUnmount (devname : Str) (sync unmount : ℕ → ℤ) : Except Fault (Reply × State) :=
  match s.findMount devname s.vdevs with
  | none => .ok ((-eNoDev, none), s)
  | some p => match (s.dev p).fs with
    | none => .ok ((-eInval, none), s)
    | some fs =>
      if sync fs ≠ 0 then .ok ((sync fs, none), s)
      else if unmount fs = 0 then .ok ((0, none), s.setDev p { s.dev p with fs := none })
      else .ok ((unmount fs, none), s)

end State

/-- The body of the loop of `vfs_unmount_all`. -/
def VfsDev.unmountOne (d : VfsDev) (sync unmount : ℕ → ℤ) : VfsDev :=
  match d.fs with
  | none => d
  | some fs => if d.mountable ∧ sync fs = 0 ∧ unmount fs = 0 then { d with fs := none } else d

namespace State

variable (s : State)

def unmountLoop (sync unmount : ℕ → ℤ) : List ℕ → State → State
  | [], s => s
  | p :: ps, s => unmountLoop sync unmount ps (s.setDev p ((s.dev p).unmountOne sync unmount))

def vfsUnmountAll (sync unmount : ℕ → ℤ) : Except Fault (Reply × State) :=
  if listEmpty s.links .vdevList then .ok ((0, none), s)
  else .ok ((0, none), unmountLoop sync unmount s.vdevs s)

end State

/-- What `vfs_get_root` does with the device that it has found. -/
def VfsDev.root (d : VfsDev) (getRoot : ℕ → Option ℕ) : Except Fault Reply :=
  let reply (found : Option ℕ) : Reply := if found = none then (-eNaDev, none) else (0, found)
  match d.fs with
  | some fs => .ok (reply (getRoot fs))
  | none =>
    if d.mountable then .ok (reply none)
    else match d.devnode with
      | none => .error .nullNode
      | some node => .ok (reply (some node))

namespace State

variable (s : State)

def rootLoop (devname : Str) (getRoot : ℕ → Option ℕ) : List ℕ → Except Fault Reply
  | [] => .ok (-eNoDev, none)
  | p :: ps => if devname = (s.dev p).devname then (s.dev p).root getRoot
    else rootLoop devname getRoot ps

def vfsGetRoot (devname : Str) (getRoot : ℕ → Option ℕ) : Except Fault (Reply × State) :=
  if listEmpty s.links .vdevList then .ok ((-eNoDev, none), s)
  else (s.rootLoop devname getRoot s.vdevs).map fun r => (r, s)

end State

inductive Call
  | addFs (devname : Str) (fs : ℕ) (dup : Bool) (vdev : Option ℕ)
  | addDev (devname : Str) (devnode : ℕ) (mountable dup : Bool) (vdev : Option ℕ)
  | mount (devname : Str) (mountfunc : ℕ → Except ℤ ℕ)
  | unmount (devname : Str) (sync unmount : ℕ → ℤ)
  | unmountAll (sync unmount : ℕ → ℤ)
  | getRoot (devname : Str) (getRoot : ℕ → Option ℕ)

def State.call (s : State) : Call → Except Fault (Reply × State)
  | .addFs devname fs dup vdev => s.vfsAddFs devname fs dup vdev
  | .addDev devname devnode mountable dup vdev => s.vfsAddDev devname devnode mountable dup vdev
  | .mount devname mountfunc => s.vfsMount devname mountfunc
  | .unmount devname sync unmount => s.vfsUnmount devname sync unmount
  | .unmountAll sync unmount => s.vfsUnmountAll sync unmount
  | .getRoot devname getRoot => s.vfsGetRoot devname getRoot

/-- `kmalloc` hands out memory that is not in use. -/
def Call.Allowed (s : State) : Call → Prop
  | .addFs _ _ _ vdev | .addDev _ _ _ _ vdev => ∀ p ∈ vdev, p ∉ s.allocated
  | _ => True

def vfsDevlistInit (dev : ℕ → VfsDev) (links : Links Entry) : State :=
  ⟨dev, listInit links .vdevList, ∅⟩

/-- What the list is for: the device of each name. -/
abbrev Table := Str → Option VfsDev

namespace Table

variable (T : Table)

def add (d : VfsDev) (dup : Bool) (vdev : Option ℕ) : Reply × Table :=
  if fsMaxDnameLen < d.devname.length then ((-eTooBig, none), T)
  else if dup = false ∨ vdev = none then ((-eNoMem, none), T)
  else if T d.devname ≠ none then ((-eExists, none), T)
  else ((0, none), Function.update T d.devname (some d))

/-- The mountable device of this name. -/
def mountable (devname : Str) : Option VfsDev := (T devname).filter (·.mountable)

def mount (devname : Str) (mountfunc : ℕ → Except ℤ ℕ) : Reply × Table :=
  match T.mountable devname with
  | none => ((-eNoDev, none), T)
  | some d =>
    if d.fs ≠ none then ((-eBusy, none), T)
    else match mountfunc (d.devnode.getD 0) with
      | .error e => ((e, none), T)
      | .ok fs => ((0, none), Function.update T devname (some { d with fs := some fs }))

def unmount (devname : Str) (sync unmount : ℕ → ℤ) : Reply × Table :=
  match T.mountable devname with
  | none => ((-eNoDev, none), T)
  | some d => match d.fs with
    | none => ((-eInval, none), T)
    | some fs =>
      if sync fs ≠ 0 then ((sync fs, none), T)
      else if unmount fs = 0 then
        ((0, none), Function.update T devname (some { d with fs := none }))
      else ((unmount fs, none), T)

def unmountAll (sync unmount : ℕ → ℤ) : Table := fun n => (T n).map (·.unmountOne sync unmount)

def root (devname : Str) (getRoot : ℕ → Option ℕ) : Reply :=
  match T devname with
  | none => (-eNoDev, none)
  | some d =>
    let found := match d.fs with
      | some fs => getRoot fs
      | none => if d.mountable then none else d.devnode
    if found = none then (-eNaDev, none) else (0, found)

def call : Call → Reply × Table
  | .addFs devname fs dup vdev => T.add ⟨devname, none, some fs, false⟩ dup vdev
  | .addDev devname devnode mountable dup vdev =>
    T.add ⟨devname, some devnode, none, mountable⟩ dup vdev
  | .mount devname mountfunc => T.mount devname mountfunc
  | .unmount devname sync unmount => T.unmount devname sync unmount
  | .unmountAll sync unmount => ((0, none), T.unmountAll sync unmount)
  | .getRoot devname getRoot => (T.root devname getRoot, T)

end Table

/-- The list of devices is `ps`, and it holds the devices of the table. -/
structure Inv (s : State) (T : Table) (ps : List ℕ) : Prop where
  ring : s.links.Ring .vdevList (ps.map .vdevLink)
  alloc : ∀ p, p ∈ ps ↔ p ∈ s.allocated
  names : (ps.map fun p => (s.dev p).devname).Nodup
  table : ∀ n d, T n = some d ↔ ∃ p ∈ ps, s.dev p = d ∧ d.devname = n
  node : ∀ p ∈ ps, (s.dev p).devnode = none → (s.dev p).fs ≠ none ∧ (s.dev p).mountable = false

section Loops

variable {s : State} {n : Str} {ps : List ℕ} {p : ℕ}

theorem checkDevnameConflict_iff :
    s.checkDevnameConflict n ps = true ↔ ∀ p ∈ ps, (s.dev p).devname ≠ n := by
  induction ps with
  | nil => simp [State.checkDevnameConflict]
  | cons p ps ih =>
    unfold State.checkDevnameConflict
    split
    · simp [*]
    · simp [*]

theorem findMount_none (h : ∀ p ∈ ps, (s.dev p).mountable → (s.dev p).devname ≠ n) :
    s.findMount n ps = none := by
  induction ps with
  | nil => rfl
  | cons p ps ih =>
    unfold State.findMount
    rw [if_neg fun hp => h p (by simp) hp.1 hp.2]
    exact ih fun q hq => h q (by simp [hq])

theorem findMount_some (hn : (ps.map fun p => (s.dev p).devname).Nodup) (hp : p ∈ ps)
    (hm : (s.dev p).mountable) : s.findMount (s.dev p).devname ps = some p := by
  induction ps with
  | nil => cases hp
  | cons q ps ih =>
    rw [List.map_cons, List.nodup_cons] at hn
    unfold State.findMount
    rcases List.mem_cons.mp hp with rfl | hp
    · rw [if_pos ⟨hm, rfl⟩]
    · have hne : (s.dev q).devname ≠ (s.dev p).devname := by
        intro he
        exact hn.1 (List.mem_map.mpr ⟨p, hp, he.symm⟩)
      rw [if_neg fun h => hne h.2]
      exact ih hn.2 hp

theorem rootLoop_none {g : ℕ → Option ℕ} (h : ∀ p ∈ ps, (s.dev p).devname ≠ n) :
    s.rootLoop n g ps = .ok (-eNoDev, none) := by
  induction ps with
  | nil => rfl
  | cons p ps ih =>
    unfold State.rootLoop
    rw [if_neg (Ne.symm (h p (by simp)))]
    exact ih fun q hq => h q (by simp [hq])

theorem rootLoop_some {g : ℕ → Option ℕ} (hn : (ps.map fun p => (s.dev p).devname).Nodup)
    (hp : p ∈ ps) : s.rootLoop (s.dev p).devname g ps = (s.dev p).root g := by
  induction ps with
  | nil => cases hp
  | cons q ps ih =>
    rw [List.map_cons, List.nodup_cons] at hn
    unfold State.rootLoop
    rcases List.mem_cons.mp hp with rfl | hp
    · rw [if_pos rfl]
    · have hne : (s.dev p).devname ≠ (s.dev q).devname := by
        intro he
        exact hn.1 (List.mem_map.mpr ⟨p, hp, he⟩)
      rw [if_neg hne]
      exact ih hn.2 hp

theorem unmountLoop_keeps {f g : ℕ → ℤ} :
    (State.unmountLoop f g ps s).links = s.links ∧
      (State.unmountLoop f g ps s).allocated = s.allocated := by
  induction ps generalizing s with
  | nil => exact ⟨rfl, rfl⟩
  | cons p ps ih => exact ih

theorem unmountLoop_dev {f g : ℕ → ℤ} (hn : ps.Nodup) {q : ℕ} :
    (State.unmountLoop f g ps s).dev q =
      if q ∈ ps then (s.dev q).unmountOne f g else s.dev q := by
  induction ps generalizing s with
  | nil => rfl
  | cons p ps ih =>
    rw [List.nodup_cons] at hn
    unfold State.unmountLoop
    rw [ih hn.2]
    simp only [State.setDev, Function.update_apply, List.mem_cons]
    rcases eq_or_ne q p with rfl | hq
    · simp [hn.1]
    · simp [hq]

end Loops

@[simp] theorem VfsDev.unmountOne_devname {d : VfsDev} {f g : ℕ → ℤ} :
    (d.unmountOne f g).devname = d.devname := by
  unfold unmountOne
  split
  · rfl
  · split <;> rfl

theorem VfsDev.unmountOne_node {d : VfsDev} {f g : ℕ → ℤ} :
    (d.unmountOne f g).devnode = d.devnode ∧ (d.unmountOne f g).mountable = d.mountable ∧
      (d.mountable = false → (d.unmountOne f g).fs = d.fs) := by
  unfold unmountOne
  split
  · exact ⟨rfl, rfl, fun _ => rfl⟩
  · split
    · rename_i h
      exact ⟨rfl, rfl, fun hm => by simp [hm] at h⟩
    · exact ⟨rfl, rfl, fun _ => rfl⟩

theorem VfsDev.root_eq {d : VfsDev} {f : ℕ → Option ℕ}
    (hd : d.devnode = none → d.fs ≠ none ∧ d.mountable = false) :
    d.root f = .ok
      (let found := match d.fs with
        | some fs => f fs
        | none => if d.mountable then none else d.devnode
      if found = none then (-eNaDev, none) else (0, found)) := by
  unfold root
  cases hfs : d.fs with
  | some fs => rfl
  | none =>
    cases hm : d.mountable with
    | true => rfl
    | false =>
      cases hn : d.devnode with
      | none => exact absurd hfs (hd hn).1
      | some node => rfl

namespace Inv

variable {s t : State} {T : Table} {ps : List ℕ} {p : ℕ} {n : Str} {d : VfsDev}

theorem nodup (k : Inv s T ps) : ps.Nodup := List.Nodup.of_map _ k.ring.nodup_tail

theorem vdevs (k : Inv s T ps) : s.vdevs = ps := by
  have hcard : ps.length = s.allocated.card := by
    rw [← List.toFinset_card_of_nodup k.nodup]
    congr 1
    ext p
    rw [List.mem_toFinset]
    exact k.alloc p
  unfold State.vdevs
  rw [walk_ring k.ring (by rw [List.length_map, hcard]), List.filterMap_map]
  exact List.filterMap_some

theorem empty_iff (k : Inv s T ps) : listEmpty s.links .vdevList = true ↔ ps = [] := by
  rw [listEmpty_iff k.ring, List.map_eq_nil_iff]

theorem get (k : Inv s T ps) (hp : p ∈ ps) : T (s.dev p).devname = some (s.dev p) :=
  (k.table _ _).mpr ⟨p, hp, rfl, rfl⟩

theorem get_none (k : Inv s T ps) : T n = none ↔ ∀ p ∈ ps, (s.dev p).devname ≠ n := by
  constructor
  · rintro h p hp rfl
    rw [k.get hp] at h
    cases h
  · intro h
    by_contra hne
    obtain ⟨d, hd⟩ := Option.ne_none_iff_exists'.mp hne
    obtain ⟨p, hp, rfl, hn⟩ := (k.table n d).mp hd
    exact h p hp hn

/-- A device is changed, but not its name. -/
theorem setDev (k : Inv s T ps) (hp : p ∈ ps) (hn : d.devname = (s.dev p).devname)
    (hd : d.devnode = none → d.fs ≠ none ∧ d.mountable = false) :
    Inv (s.setDev p d) (Function.update T d.devname (some d)) ps := by
  have hdev : ∀ q, (s.setDev p d).dev q = if q = p then d else s.dev q := fun q => by
    simp [State.setDev, Function.update_apply]
  have hname : ∀ q, ((s.setDev p d).dev q).devname = (s.dev q).devname := by
    intro q
    rw [hdev]
    split
    · rename_i h
      rw [h, hn]
    · rfl
  refine ⟨k.ring, k.alloc, ?_, ?_, ?_⟩
  · simp only [hname]
    exact k.names
  · intro m e
    rw [Function.update_apply]
    constructor
    · intro h
      split at h
      · rename_i hm
        obtain rfl := Option.some.inj h
        exact ⟨p, hp, by rw [hdev, if_pos rfl], hm.symm⟩
      · rename_i hm
        obtain ⟨q, hq, rfl, rfl⟩ := (k.table m e).mp h
        refine ⟨q, hq, ?_, rfl⟩
        rw [hdev, if_neg]
        rintro rfl
        exact hm hn.symm
    · rintro ⟨q, hq, rfl, rfl⟩
      rw [hdev]
      split
      · rw [if_pos rfl]
      · rename_i hqp
        rw [if_neg, k.get hq]
        intro he
        exact hqp (List.inj_on_of_nodup_map k.names hq hp (he.trans hn))
  · intro q hq
    rw [hdev]
    split
    · exact hd
    · exact k.node q hq

/-- A new device, with a name that is free. -/
theorem insert (k : Inv s T ps) (hp : p ∉ ps) (hc : T d.devname = none)
    (hd : d.devnode ≠ none ∨ d.fs ≠ none ∧ d.mountable = false) :
    Inv { s.setDev p d with
        links := listAdd s.links .vdevList (.vdevLink p)
        allocated := insert p s.allocated }
      (Function.update T d.devname (some d)) (p :: ps) := by
  have hdev : ∀ q ∈ ps, Function.update s.dev p d q = s.dev q := by
    intro q hq
    apply Function.update_of_ne
    rintro rfl
    exact hp hq
  have hlink : Entry.vdevLink p ∉ Entry.vdevList :: ps.map .vdevLink := by simpa using hp
  have hfree := k.get_none.mp hc
  refine ⟨listAdd_ring k.ring hlink, ?_, ?_, ?_, ?_⟩
  · intro q
    rw [List.mem_cons, Finset.mem_insert, k.alloc]
  · have hmap : (ps.map fun q => (Function.update s.dev p d q).devname) =
        ps.map fun q => (s.dev q).devname :=
      List.map_congr_left fun q hq => by rw [hdev q hq]
    simp only [State.setDev, List.map_cons, Function.update_self, hmap, List.nodup_cons]
    refine ⟨fun h => ?_, k.names⟩
    obtain ⟨q, hq, he⟩ := List.mem_map.mp h
    exact hfree q hq he
  · intro m e
    simp only [State.setDev, List.mem_cons, exists_eq_or_imp, Function.update_self]
    rw [Function.update_apply]
    constructor
    · intro h
      split at h
      · rename_i hm
        exact .inl ⟨Option.some.inj h, by rw [← Option.some.inj h, hm]⟩
      · obtain ⟨q, hq, rfl, rfl⟩ := (k.table m e).mp h
        exact .inr ⟨q, hq, hdev q hq, rfl⟩
    · rintro (⟨rfl, rfl⟩ | ⟨q, hq, rfl, rfl⟩)
      · rw [if_pos rfl]
      · rw [hdev q hq, if_neg (hfree q hq)]
        exact k.get hq
  · intro q hq
    simp only [State.setDev]
    rcases List.mem_cons.mp hq with rfl | hq
    · rw [Function.update_self]
      intro hn
      exact hd.resolve_left fun h => h hn
    · rw [hdev q hq]
      exact k.node q hq

theorem add (k : Inv s T ps) {dup : Bool} {vdev : Option ℕ} (hv : ∀ p ∈ vdev, p ∉ s.allocated)
    (hd : d.devnode ≠ none ∨ d.fs ≠ none ∧ d.mountable = false) :
    ∃ t ps', s.vfsDoAdd d dup vdev = .ok ((T.add d dup vdev).1, t) ∧
      Inv t (T.add d dup vdev).2 ps' := by
  unfold State.vfsDoAdd Table.add
  have hnode : ¬¬(d.devnode = none ∧ d.mountable = false ∨ d.devnode ≠ none) := by
    rcases hd with hd | ⟨-, hd⟩ <;> simp [hd, em]
  rw [if_neg hnode]
  split
  · exact ⟨s, ps, rfl, k⟩
  cases hdup : dup with
  | false => exact ⟨s, ps, rfl, k⟩
  | true =>
    cases vdev with
    | none => exact ⟨s, ps, rfl, k⟩
    | some p =>
      have hpa : p ∉ s.allocated := hv p rfl
      have hps : p ∉ ps := fun h => hpa ((k.alloc p).mp h)
      simp only [Bool.true_eq_false, reduceCtorEq, or_self, if_false, k.vdevs]
      by_cases hc : T d.devname = none
      · have hfree := checkDevnameConflict_iff.mpr (k.get_none.mp hc)
        rw [if_neg (by simp [hfree]), if_neg (by simp [hc])]
        exact ⟨_, p :: ps, rfl, k.insert hps hc hd⟩
      · have hused : s.checkDevnameConflict d.devname ps = false := by
          rw [← Bool.not_eq_true, checkDevnameConflict_iff]
          exact fun h => hc (k.get_none.mpr h)
        rw [if_pos hused, if_pos hc]
        exact ⟨s, ps, rfl, k⟩

theorem findMount (k : Inv s T ps) :
    (T.mountable n = none ∧ s.findMount n ps = none) ∨
      ∃ p ∈ ps, T.mountable n = some (s.dev p) ∧ (s.dev p).mountable ∧ (s.dev p).devname = n ∧
        s.findMount n ps = some p := by
  by_cases h : ∃ p ∈ ps, (s.dev p).mountable ∧ (s.dev p).devname = n
  · obtain ⟨p, hp, hm, rfl⟩ := h
    refine .inr ⟨p, hp, ?_, hm, rfl, findMount_some k.names hp hm⟩
    rw [Table.mountable, k.get hp, Option.filter_some, if_pos hm]
  · have hnone : ∀ p ∈ ps, (s.dev p).mountable → (s.dev p).devname ≠ n :=
      fun p hp hm hn => h ⟨p, hp, hm, hn⟩
    refine .inl ⟨?_, findMount_none hnone⟩
    rw [Table.mountable, Option.filter_eq_none_iff]
    intro d hd hm
    obtain ⟨p, hp, rfl, hn⟩ := (k.table n d).mp hd
    exact hnone p hp hm hn

theorem mount (k : Inv s T ps) (f : ℕ → Except ℤ ℕ) :
    ∃ t, s.vfsMount n f = .ok ((T.mount n f).1, t) ∧ Inv t (T.mount n f).2 ps := by
  unfold State.vfsMount Table.mount
  rw [k.vdevs]
  rcases k.findMount (n := n) with ⟨hT, hs⟩ | ⟨p, hp, hT, hm, rfl, hs⟩
  · rw [hT, hs]
    exact ⟨s, rfl, k⟩
  rw [hT, hs]
  dsimp only
  by_cases hfs : (s.dev p).fs ≠ none
  · rw [if_pos hfs, if_pos hfs]
    exact ⟨s, rfl, k⟩
  rw [if_neg hfs, if_neg hfs]
  obtain ⟨node, hnode⟩ : ∃ node, (s.dev p).devnode = some node := by
    apply Option.ne_none_iff_exists'.mp
    intro h
    exact hfs (k.node p hp h).1
  rw [hnode]
  dsimp only [Option.getD_some]
  cases f node with
  | error e => exact ⟨s, rfl, k⟩
  | ok fs =>
    exact ⟨_, rfl, k.setDev hp rfl fun h => by simp at h⟩

theorem unmount (k : Inv s T ps) (f g : ℕ → ℤ) :
    ∃ t, s.vfsUnmount n f g = .ok ((T.unmount n f g).1, t) ∧ Inv t (T.unmount n f g).2 ps := by
  unfold State.vfsUnmount Table.unmount
  rw [k.vdevs]
  rcases k.findMount (n := n) with ⟨hT, hs⟩ | ⟨p, hp, hT, hm, rfl, hs⟩
  · rw [hT, hs]
    exact ⟨s, rfl, k⟩
  rw [hT, hs]
  dsimp only
  cases (s.dev p).fs with
  | none => exact ⟨s, rfl, k⟩
  | some fs =>
    dsimp only
    split
    · exact ⟨s, rfl, k⟩
    split
    · refine ⟨_, rfl, k.setDev hp rfl fun h => ?_⟩
      have := (k.node p hp h).2
      simp [hm] at this
    · exact ⟨s, rfl, k⟩

theorem unmountAll (k : Inv s T ps) (f g : ℕ → ℤ) :
    ∃ t, s.vfsUnmountAll f g = .ok ((0, none), t) ∧ Inv t (T.unmountAll f g) ps := by
  unfold State.vfsUnmountAll Table.unmountAll
  split
  · rename_i he
    obtain rfl := k.empty_iff.mp he
    have hT : (fun n => (T n).map (·.unmountOne f g)) = T := by
      funext n
      have : T n = none := k.get_none.mpr fun p hp => by cases hp
      rw [this]
      rfl
    refine ⟨s, rfl, ?_⟩
    rw [hT]
    exact k
  rw [k.vdevs]
  refine ⟨_, rfl, ?_⟩
  have hdev : ∀ p ∈ ps, (State.unmountLoop f g ps s).dev p = (s.dev p).unmountOne f g := by
    intro p hp
    rw [unmountLoop_dev k.nodup, if_pos hp]
  have hkeep : (State.unmountLoop f g ps s).links = s.links ∧
      (State.unmountLoop f g ps s).allocated = s.allocated := unmountLoop_keeps
  obtain ⟨hl, ha⟩ := hkeep
  refine ⟨?_, ?_, ?_, ?_, ?_⟩
  · rw [hl]
    exact k.ring
  · rw [ha]
    exact k.alloc
  · rw [List.map_congr_left fun p hp => by rw [hdev p hp, VfsDev.unmountOne_devname]]
    exact k.names
  · intro m e
    rw [Option.map_eq_some_iff]
    constructor
    · rintro ⟨d, hd, rfl⟩
      obtain ⟨p, hp, rfl, hn⟩ := (k.table m d).mp hd
      exact ⟨p, hp, hdev p hp, by rw [VfsDev.unmountOne_devname, hn]⟩
    · rintro ⟨p, hp, rfl, hn⟩
      rw [hdev p hp, VfsDev.unmountOne_devname] at hn
      exact ⟨s.dev p, (k.table m _).mpr ⟨p, hp, rfl, hn⟩, (hdev p hp).symm⟩
  · intro p hp hn
    obtain ⟨h₁, h₂, h₃⟩ := (s.dev p).unmountOne_node (f := f) (g := g)
    rw [hdev p hp] at hn ⊢
    rw [h₁] at hn
    obtain ⟨hfs, hm⟩ := k.node p hp hn
    rw [h₂, h₃ hm]
    exact ⟨hfs, hm⟩

theorem getRoot (k : Inv s T ps) (f : ℕ → Option ℕ) :
    s.vfsGetRoot n f = .ok (T.root n f, s) := by
  have hloop : s.rootLoop n f ps = .ok (T.root n f) := by
    unfold Table.root
    cases hT : T n with
    | none => exact rootLoop_none (k.get_none.mp hT)
    | some d =>
      obtain ⟨p, hp, rfl, rfl⟩ := (k.table n d).mp hT
      rw [rootLoop_some k.names hp]
      exact VfsDev.root_eq (k.node p hp)
  unfold State.vfsGetRoot
  split
  · rename_i he
    obtain rfl := k.empty_iff.mp he
    rw [← Except.ok.inj hloop]
  · rw [k.vdevs, hloop]
    rfl

theorem call (k : Inv s T ps) {c : Call} (h : c.Allowed s) :
    ∃ t ps', s.call c = .ok ((T.call c).1, t) ∧ Inv t (T.call c).2 ps' := by
  cases c with
  | addFs n fs dup vdev => exact k.add (d := ⟨n, none, some fs, false⟩) h (.inr ⟨by simp, rfl⟩)
  | addDev n node mountable dup vdev =>
    exact k.add (d := ⟨n, some node, none, mountable⟩) h (.inl (by simp))
  | mount n f =>
    obtain ⟨t, ht, kt⟩ := k.mount (n := n) f
    exact ⟨t, ps, ht, kt⟩
  | unmount n f g =>
    obtain ⟨t, ht, kt⟩ := k.unmount (n := n) f g
    exact ⟨t, ps, ht, kt⟩
  | unmountAll f g =>
    obtain ⟨t, ht, kt⟩ := k.unmountAll f g
    exact ⟨t, ps, ht, kt⟩
  | getRoot n f => exact ⟨s, ps, k.getRoot f, k⟩

end Inv

def State.Step (s : State) (c : Call × Reply) (t : State) : Prop :=
  c.1.Allowed s ∧ s.call c.1 = .ok (c.2, t)

def Table.Step (T : Table) (c : Call × Reply) (U : Table) : Prop := T.call c.1 = (c.2, U)

/-- After every run of calls the list is a map from names, on which each call did what it returned.
No two devices have the same name, and no call fails an assertion or uses an inode that is
`NULL`. -/
theorem devices_refine {dev : ℕ → VfsDev} {links : Links Entry}
    {l : List (Call × Reply)} {s : State}
    (h : Runs State.Step (vfsDevlistInit dev links) l s) :
    ∃ T, Runs Table.Step (fun _ => none) l T ∧
      (s.vdevs.map fun p => (s.dev p).devname).Nodup ∧
      (∀ n d, T n = some d ↔ ∃ p ∈ s.vdevs, s.dev p = d ∧ d.devname = n) ∧
      ∀ c : Call, c.Allowed s → ∃ t, s.call c = .ok ((T.call c).1, t) := by
  have hinit : ∃ ps, Inv (vfsDevlistInit dev links) (fun _ => none) ps :=
    ⟨[], listInit_ring, by simp [vfsDevlistInit], by simp, by simp, by simp⟩
  obtain ⟨T, hT, ps, k⟩ := h.simulate (g := Table.Step) (R := fun s T => ∃ ps, Inv s T ps) (by
    rintro s ⟨c, r⟩ t T ⟨ps, k⟩ ⟨hc, hs⟩
    obtain ⟨t', ps', ht, kt⟩ := k.call hc
    obtain ⟨hr, rfl⟩ := Prod.mk.inj (Except.ok.inj (ht.symm.trans hs))
    exact ⟨(T.call c).2, Prod.ext hr rfl, ps', kt⟩) hinit
  refine ⟨T, hT, ?_, ?_, fun c hc => ?_⟩
  · rw [k.vdevs]
    exact k.names
  · rw [k.vdevs]
    exact k.table
  · obtain ⟨t, -, ht, -⟩ := k.call hc
    exact ⟨t, ht⟩

/-- A second device of the same name is refused, and the first one is mounted. -/
theorem devices_refine_twice :
    ∃ s T, Runs State.Step (vfsDevlistInit (fun _ => ⟨[], none, none, false⟩) ⟨id, id⟩)
        [(.addDev [100] 1 true true (some 7), (0, none)),
          (.addDev [100] 2 false true (some 8), (-eExists, none)),
          (.mount [100] fun _ => .ok 3, (0, none))] s ∧
      Runs Table.Step (fun _ => none)
        [(.addDev [100] 1 true true (some 7), (0, none)),
          (.addDev [100] 2 false true (some 8), (-eExists, none)),
          (.mount [100] fun _ => .ok 3, (0, none))] T ∧
      ((T [100]).bind VfsDev.fs) = some 3 := by
  have hr : ∃ s, Runs State.Step (vfsDevlistInit (fun _ => ⟨[], none, none, false⟩) ⟨id, id⟩)
      [(.addDev [100] 1 true true (some 7), (0, none)),
        (.addDev [100] 2 false true (some 8), (-eExists, none)),
        (.mount [100] fun _ => .ok 3, (0, none))] s ∧
      7 ∈ s.vdevs ∧ (s.dev 7).devname = [100] ∧ (s.dev 7).fs = some 3 := by
    refine ⟨_, .cons ⟨?_, rfl⟩ (.cons ⟨?_, rfl⟩ (.cons ⟨trivial, rfl⟩ (.nil _))), ?_, ?_, ?_⟩
    · intro p hp
      exact Finset.notMem_empty p
    · rintro p hp
      obtain rfl := Option.some.inj hp
      decide
    · decide
    · rfl
    · rfl
  obtain ⟨s, hs, hm, hn, hfs⟩ := hr
  obtain ⟨T, hT, -, htable, -⟩ := devices_refine hs
  refine ⟨s, T, hs, hT, ?_⟩
  rw [(htable [100] (s.dev 7)).mpr ⟨7, hm, rfl, hn⟩]
  exact hfs

/-- The table after the boot: the disk with its volume, and the two devices of the console. -/
def bootTable (k : Vfs.Kernel) (disk fs : ℕ) : Table := fun n =>
  if n = Vfs.disk0Name then some ⟨n, some disk, some fs, true⟩
  else if n = Vfs.stdinName then some ⟨n, some (k.devnode .stdin), none, false⟩
  else if n = Vfs.stdoutName then some ⟨n, some (k.devnode .stdout), none, false⟩
  else none

/-- On the table of the boot `vfs_get_root` answers as the lookup of a path takes it to answer,
where `p` is the root that the volume gives. -/
theorem vfsGetRoot_boot {s : State} {k k' : Vfs.Kernel} {disk fs p : ℕ} {ret : ℤ} {n : Str}
    {ps : List ℕ} (i : Inv s (bootTable k disk fs) ps)
    (h : Vfs.vfsGetRoot n k = .ok ((ret, p), k')) :
    s.vfsGetRoot n (fun _ => some p) = .ok ((ret, if ret = 0 then some p else none), s) := by
  rw [i.getRoot]
  unfold Vfs.vfsGetRoot at h
  unfold Table.root bootTable
  by_cases hdisk : n = Vfs.disk0Name
  · rw [if_pos hdisk] at h ⊢
    obtain ⟨q, k₁, -, h⟩ := Code.bind_eq_ok h
    cases h
    rfl
  rw [if_neg hdisk] at h ⊢
  by_cases hin : n = Vfs.stdinName
  · rw [if_pos (.inl hin)] at h
    rw [if_pos hin]
    obtain ⟨k₁, k₂, hget, h⟩ := Code.bind_eq_ok h
    cases hget
    obtain ⟨_, k₃, -, h⟩ := Code.bind_eq_ok h
    cases h
    rw [if_pos hin]
    rfl
  rw [if_neg hin]
  by_cases hout : n = Vfs.stdoutName
  · rw [if_pos (.inr hout)] at h
    rw [if_pos hout]
    obtain ⟨k₁, k₂, hget, h⟩ := Code.bind_eq_ok h
    cases hget
    obtain ⟨_, k₃, -, h⟩ := Code.bind_eq_ok h
    cases h
    rw [if_neg hin]
    rfl
  · rw [if_neg (by tauto)] at h
    rw [if_neg hout]
    cases h
    rfl
end UCore.Devices
