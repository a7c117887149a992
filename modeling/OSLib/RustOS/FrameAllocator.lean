import Mathlib.Data.List.Nodup
import Mathlib.Data.List.Range
import Mathlib.Algebra.Ring.Nat
import Mathlib.Data.List.ReduceOption

/-!
# rustOS: `BootInfoFrameAllocator`

Each call of `allocate_frame` builds the iterator of all usable frames anew and takes the element at
a running index.  An iterator is the list of its elements here; `nth` runs the closures of the
adaptors on the elements up to the one it returns.

## The crates

What comes from the crates `bootloader` and `x86_64` is a parameter (`FrameCrates`), with what their
documentation says of it as hypotheses (`FrameCrates.Documented`): `start_addr` and `end_addr` are
the frame numbers times 4096, as far as these fit a `u64`; `PhysAddr::new` panics on an address with
a bit above bit 51 set, and only there; and `PhysFrame::containing_address` is the frame the address
lies in.  Of a region whose addresses do not fit nothing is known, and it is left out
(`MemoryRegion.Fits`).

## Panics

A call that panics has no result.  `PhysAddr::new` panics as its documentation says, and the running
index, a `usize`, panics when it overflows.  `calls_handOut` says when neither happens.
-/

namespace OSLib
namespace RustOS

/-! ## The memory map -/

/-- `MemoryRegionType`, of which the allocator only asks whether it is `Usable`. -/
inductive MemoryRegionType where
  | usable | other
  deriving DecidableEq

/-- `MemoryRegion`, with its `range` of frame numbers. -/
structure MemoryRegion where
  startFrameNumber : ℕ
  endFrameNumber : ℕ
  regionType : MemoryRegionType

/-- `PhysFrame`. -/
structure PhysFrame where
  startAddress : ℕ
  deriving DecidableEq

/-- The functions of `bootloader` and `x86_64` that the allocator calls; `none` is a panic. -/
structure FrameCrates where
  startAddr : MemoryRegion → Option ℕ
  endAddr : MemoryRegion → Option ℕ
  physAddr : ℕ → Option ℕ
  containingAddress : ℕ → PhysFrame

/-- What they are documented to do. -/
structure FrameCrates.Documented (k : FrameCrates) : Prop where
  startAddr : ∀ r, r.startFrameNumber * 4096 < 2 ^ 64 →
    k.startAddr r = some (r.startFrameNumber * 4096)
  endAddr : ∀ r, r.endFrameNumber * 4096 < 2 ^ 64 → k.endAddr r = some (r.endFrameNumber * 4096)
  physAddr_of_lt : ∀ addr < 2 ^ 52, k.physAddr addr = some addr
  physAddr_of_ge : ∀ addr, 2 ^ 52 ≤ addr → k.physAddr addr = none
  containingAddress : ∀ addr < 2 ^ 52, k.containingAddress addr = ⟨addr / 4096 * 4096⟩

/-- The addresses of the region fit a `u64`. -/
def MemoryRegion.Fits (r : MemoryRegion) : Prop :=
  r.startFrameNumber * 4096 < 2 ^ 64 ∧ r.endFrameNumber * 4096 < 2 ^ 64

instance (r : MemoryRegion) : Decidable r.Fits := by unfold MemoryRegion.Fits; infer_instance

/-- `(start..stop).step_by(step)`. -/
def stepBy (start stop step : ℕ) : List ℕ :=
  List.range' start ((stop - start + (step - 1)) / step) step

/-! ## The allocator -/

/-- `BootInfoFrameAllocator`. -/
structure BootInfoFrameAllocator where
  memMap : List MemoryRegion
  next : ℕ

namespace BootInfoFrameAllocator

/-- `init`. -/
def init (memMap : List MemoryRegion) : BootInfoFrameAllocator := ⟨memMap, 0⟩

/-- The first `n` addresses of the regions' ranges, by `map`, `flat_map` and `step_by`: a region is
come to when those before it do not have as many. -/
def frameAddresses (k : FrameCrates) : List MemoryRegion → ℕ → Option (List ℕ)
  | [], _ => some []
  | r :: regions, n =>
    if n = 0 then some []
    else do
      let start ← k.startAddr r
      let stop ← k.endAddr r
      let addrs := (stepBy start stop 0x1000).take n
      let rest ← frameAddresses k regions (n - addrs.length)
      return addrs ++ rest

/-- `usable_frames().nth(n)`. -/
def nth (k : FrameCrates) (a : BootInfoFrameAllocator) (n : ℕ) : Option (Option PhysFrame) := do
  let usableRegions := a.memMap.filter fun r => r.regionType = .usable
  let addrs ← frameAddresses k usableRegions (n + 1)
  let frames ← addrs.mapM fun addr => (k.physAddr addr).map k.containingAddress
  return frames[n]?

/-- `allocate_frame`. -/
def allocateFrame (k : FrameCrates) (a : BootInfoFrameAllocator) :
    Option (Option PhysFrame × BootInfoFrameAllocator) := do
  let frame ← a.nth k a.next
  if a.next + 1 < 2 ^ 64 then some (frame, { a with next := a.next + 1 }) else none

/-- What `n` calls return. -/
def calls (k : FrameCrates) (a : BootInfoFrameAllocator) : ℕ → Option (List (Option PhysFrame))
  | 0 => some []
  | n + 1 => do
    let (frame, a) ← a.allocateFrame k
    let frames ← a.calls k n
    return frame :: frames

end BootInfoFrameAllocator

/-! ## Frames of a map -/

/-- The frame with a number. -/
def frame (x : ℕ) : PhysFrame := ⟨x * 4096⟩

namespace MemoryRegion

variable (r s : MemoryRegion)

/-- The frame lies in the region. -/
def Has (f : PhysFrame) : Prop :=
  r.startFrameNumber * 4096 ≤ f.startAddress ∧ f.startAddress + 4096 ≤ r.endFrameNumber * 4096 ∧
    4096 ∣ f.startAddress

/-- The regions share no frame. -/
def Disjoint : Prop := ∀ f, r.Has f → ¬ s.Has f

/-- Regions one behind the other share no frame. -/
theorem disjoint_of_le {r s : MemoryRegion} (h : r.endFrameNumber ≤ s.startFrameNumber) :
    r.Disjoint s := by
  rintro f ⟨-, hend, -⟩ ⟨hstart, -, -⟩
  omega

/-- The frames of the region, in ascending order. -/
def frames : List PhysFrame :=
  (List.range' r.startFrameNumber (r.endFrameNumber - r.startFrameNumber)).map frame

end MemoryRegion

/-- The frames of the usable regions, in the order of the map. -/
def usableFrames (memMap : List MemoryRegion) : List PhysFrame :=
  (memMap.filter fun r => r.regionType = .usable).flatMap MemoryRegion.frames

/-- What the calls on an allocator should return. -/
structure HandsOut (memMap : List MemoryRegion) (results : List (Option PhysFrame)) : Prop where
  /-- The frames come in map order, from the first one on. -/
  ordered : results.reduceOption = (usableFrames memMap).take results.length
  distinct : results.reduceOption.Nodup
  usable : ∀ f, some f ∈ results → ∃ r ∈ memMap, r.regionType = .usable ∧ r.Has f
  complete : ∀ i, results[i]? = some none → ∀ r ∈ memMap, r.regionType = .usable →
    ∀ f, r.Has f → some f ∈ results.take i
  exhausted : ∀ i j, i ≤ j → results[i]? = some none → j < results.length →
    results[j]? = some none

variable {crates : FrameCrates} {memMap : List MemoryRegion} {r : MemoryRegion} {f : PhysFrame}
  {n k : ℕ}

/-! ## The iterator -/

/-- Stepping through the addresses of a region visits its frames. -/
theorem stepBy_region (r : MemoryRegion) :
    stepBy (r.startFrameNumber * 4096) (r.endFrameNumber * 4096) 0x1000 =
      r.frames.map PhysFrame.startAddress := by
  have hcount : (r.endFrameNumber * 4096 - r.startFrameNumber * 4096 + (0x1000 - 1)) / 0x1000 =
      r.endFrameNumber - r.startFrameNumber := by
    omega
  unfold stepBy MemoryRegion.frames
  rw [hcount]
  refine List.ext_getElem (by simp) fun i hi _ => ?_
  simp only [List.getElem_range', List.getElem_map, frame]
  omega

/-- **The addresses are those of the frames**, region after region. -/
theorem frameAddresses_eq (hk : crates.Documented) {regions : List MemoryRegion}
    (hfits : ∀ r ∈ regions, r.Fits) (n : ℕ) :
    BootInfoFrameAllocator.frameAddresses crates regions n =
      some (((regions.flatMap MemoryRegion.frames).take n).map PhysFrame.startAddress) := by
  induction regions generalizing n with
  | nil => rw [BootInfoFrameAllocator.frameAddresses, List.flatMap_nil, List.take_nil, List.map_nil]
  | cons r regions ih =>
    obtain ⟨⟨hstart, hend⟩, hfits⟩ := List.forall_mem_cons.mp hfits
    rw [BootInfoFrameAllocator.frameAddresses]
    by_cases hn : n = 0
    · rw [if_pos hn, hn, List.take_zero, List.map_nil]
    · rw [if_neg hn, hk.startAddr r hstart, hk.endAddr r hend]
      simp only [Option.bind_eq_bind, Option.bind_some, stepBy_region, ih hfits]
      rw [List.flatMap_cons, List.take_append, List.map_append, List.map_take, List.length_take,
        List.length_map]
      have hmin : n - min n r.frames.length = n - r.frames.length := by omega
      rw [hmin, List.map_take, List.map_take]
      rfl

theorem mem_frames : f ∈ r.frames ↔ r.Has f := by
  unfold MemoryRegion.frames MemoryRegion.Has
  simp only [List.mem_map, List.mem_range'_1]
  constructor
  · rintro ⟨x, ⟨hlo, hhi⟩, rfl⟩
    unfold frame
    simp only
    omega
  · rintro ⟨hlo, hhi, x, hx⟩
    obtain ⟨a⟩ := f
    refine ⟨x, ⟨?_, ?_⟩, ?_⟩
    · simp only at hx hlo
      omega
    · simp only at hx hhi
      omega
    · simp only at hx
      rw [hx, frame, Nat.mul_comm]

/-- The usable frames are those of the usable regions. -/
theorem mem_usableFrames :
    f ∈ usableFrames memMap ↔ ∃ r ∈ memMap, r.regionType = .usable ∧ r.Has f := by
  unfold usableFrames
  simp only [List.mem_flatMap, List.mem_filter, decide_eq_true_eq, mem_frames, and_assoc]

theorem nodup_frames (r : MemoryRegion) : r.frames.Nodup := by
  refine (List.nodup_range' : (List.range' _ _ 1).Nodup).map fun x y h => ?_
  have hmul : x * 4096 = y * 4096 := congrArg PhysFrame.startAddress h
  omega

/-- The usable frames of disjoint regions are distinct. -/
theorem nodup_usableFrames (h : memMap.Pairwise MemoryRegion.Disjoint) :
    (usableFrames memMap).Nodup := by
  refine List.nodup_flatMap.mpr ⟨fun r _ => nodup_frames r, ?_⟩
  refine (h.filter _).imp fun hdisj f hf hf' => ?_
  exact hdisj f (mem_frames.mp hf) (mem_frames.mp hf')

/-- Making the frame of a frame's address panics exactly outside the physical address space. -/
theorem physAddr_frame (hk : crates.Documented) (x : ℕ) :
    (crates.physAddr (frame x).startAddress).map crates.containingAddress =
      if (frame x).startAddress < 2 ^ 52 then some (frame x) else none := by
  split
  · next h =>
    rw [hk.physAddr_of_lt _ h, Option.map_some, hk.containingAddress _ h, frame,
      Nat.mul_div_cancel x (Nat.succ_pos 4095)]
  · next h => rw [hk.physAddr_of_ge _ (Nat.le_of_not_lt h), Option.map_none]

/-- Running the closures over frames gives the frames back, unless one of them panics. -/
theorem mapM_frames (hk : crates.Documented) {l : List PhysFrame} (h : ∀ f ∈ l, ∃ x, f = frame x) :
    (l.map PhysFrame.startAddress).mapM
        (fun addr => (crates.physAddr addr).map crates.containingAddress) =
      if ∀ f ∈ l, f.startAddress < 2 ^ 52 then some l else none := by
  induction l with
  | nil => simp
  | cons f l ih =>
    obtain ⟨⟨x, rfl⟩, hl⟩ := List.forall_mem_cons.mp h
    rw [List.map_cons, List.mapM_cons, ih hl, physAddr_frame hk]
    simp only [List.forall_mem_cons]
    by_cases hx : (frame x).startAddress < 2 ^ 52
    · by_cases hall : ∀ f ∈ l, f.startAddress < 2 ^ 52
      · rw [if_pos hx, if_pos hall, if_pos ⟨hx, hall⟩]
        rfl
      · rw [if_pos hx, if_neg hall, if_neg (hall ·.2)]
        rfl
    · have hnot : ¬ ((frame x).startAddress < 2 ^ 52 ∧ ∀ f ∈ l, f.startAddress < 2 ^ 52) :=
        fun hall => hx hall.1
      rw [if_neg hx, if_neg hnot]
      rfl

/-- The first usable frames lie in the 52-bit physical address space. -/
abbrev Physical (memMap : List MemoryRegion) (n : ℕ) : Prop :=
  ∀ f ∈ (usableFrames memMap).take n, f.startAddress < 2 ^ 52

/-- The addresses of the usable regions fit a `u64`. -/
def UsableFit (memMap : List MemoryRegion) : Prop :=
  ∀ r ∈ memMap, r.regionType = .usable → r.Fits

/-- **`nth` finds the usable frame with an index**, if making the ones up to it does not panic. -/
theorem nth_eq (hk : crates.Documented) (hfits : UsableFit memMap) (next n : ℕ) :
    BootInfoFrameAllocator.nth crates ⟨memMap, next⟩ n =
      if Physical memMap (n + 1) then some (usableFrames memMap)[n]? else none := by
  have hframe : ∀ f ∈ (usableFrames memMap).take (n + 1), ∃ x, f = frame x := by
    intro f hf
    obtain ⟨r, -, -, hhas⟩ := mem_usableFrames.mp (List.mem_of_mem_take hf)
    obtain ⟨x, -, hx⟩ := List.mem_map.mp (mem_frames.mpr hhas)
    exact ⟨x, hx.symm⟩
  have hregions : ∀ r ∈ memMap.filter fun r => r.regionType = .usable, r.Fits := by
    intro r hr
    obtain ⟨hmem, husable⟩ := List.mem_filter.mp hr
    exact hfits r hmem (of_decide_eq_true husable)
  have haddrs := frameAddresses_eq hk hregions (n + 1)
  rw [← usableFrames] at haddrs
  unfold BootInfoFrameAllocator.nth
  simp only [haddrs, Option.bind_eq_bind, Option.bind_some, mapM_frames hk hframe]
  unfold Physical
  split
  · show some _ = _
    rw [List.getElem?_take_of_lt (Nat.lt_succ_self n)]
  · rfl

/-! ## The calls -/

theorem Physical.of_le (h : Physical memMap n) (hk : k ≤ n) : Physical memMap k := fun f hf =>
  h f ((List.take_sublist_take_left hk).subset hf)

/-- **What the calls return**: the usable frames one after the other, as long as the running index
does not overflow and the frames are physical. -/
theorem calls_eq (hk : crates.Documented) (hfits : UsableFit memMap) (k n : ℕ) :
    BootInfoFrameAllocator.calls crates ⟨memMap, k⟩ n =
      if n = 0 ∨ k + n < 2 ^ 64 ∧ Physical memMap (k + n) then
        some ((List.range' k n).map fun i => (usableFrames memMap)[i]?)
      else none := by
  induction n generalizing k with
  | zero => rw [if_pos (.inl rfl)]; rfl
  | succ n ih =>
    rw [BootInfoFrameAllocator.calls, BootInfoFrameAllocator.allocateFrame, nth_eq hk hfits]
    by_cases hphys : Physical memMap (k + 1)
    · rw [if_pos hphys]
      simp only [Option.bind_eq_bind, Option.bind_some]
      by_cases hlt : k + 1 < 2 ^ 64
      · rw [if_pos hlt]
        simp only [Option.bind_some]
        rw [ih]
        have hiff : (n = 0 ∨ k + 1 + n < 2 ^ 64 ∧ Physical memMap (k + 1 + n)) ↔
            (n + 1 = 0 ∨ k + (n + 1) < 2 ^ 64 ∧ Physical memMap (k + (n + 1))) := by
          rw [Nat.add_right_comm k 1 n, Nat.add_assoc k n 1]
          constructor
          · rintro (rfl | h)
            · exact .inr ⟨hlt, hphys⟩
            · exact .inr h
          · rintro (h | h)
            · omega
            · exact .inr h
        simp only [hiff]
        split <;> rfl
      · rw [if_neg hlt, if_neg (by omega)]
        rfl
    · rw [if_neg hphys, if_neg]
      · rfl
      · rintro (h | ⟨-, h⟩)
        · omega
        · exact hphys (h.of_le (by omega))

/-- Taking the elements of a list one by one. -/
theorem reduceOption_getElem? {α : Type*} (l : List α) (n : ℕ) :
    ((List.range n).map fun i => l[i]?).reduceOption = l.take n := by
  induction n with
  | zero => rfl
  | succ n ih =>
    rw [List.range_succ, List.map_append, List.reduceOption_append, ih, List.take_add_one,
      List.map_singleton, List.reduceOption_singleton]

/-- The usable frames one after the other are what an allocator should hand out. -/
theorem handsOut_range (h : memMap.Pairwise MemoryRegion.Disjoint) (n : ℕ) :
    HandsOut memMap ((List.range n).map fun i => (usableFrames memMap)[i]?) := by
  have hget (i : ℕ) : ((List.range n).map fun i => (usableFrames memMap)[i]?)[i]? =
      if i < n then some (usableFrames memMap)[i]? else none := by
    rw [List.getElem?_map]
    split
    · next hi => rw [List.getElem?_range hi, Option.map_some]
    · next hi => rw [List.getElem?_eq_none (by simpa using hi), Option.map_none]
  refine ⟨?_, ?_, fun f hf => ?_, fun i hi r hr hu f hf => ?_, fun i j hij hi hj => ?_⟩
  · rw [reduceOption_getElem?, List.length_map, List.length_range]
  · rw [reduceOption_getElem?]
    exact (nodup_usableFrames h).sublist (List.take_sublist _ _)
  · obtain ⟨i, -, hi⟩ := List.mem_map.mp hf
    exact mem_usableFrames.mp (List.mem_of_getElem? hi)
  · rw [hget] at hi
    split at hi
    · next hlt =>
      have hlen := List.getElem?_eq_none_iff.mp (Option.some.inj hi)
      obtain ⟨x, hx, rfl⟩ := List.mem_iff_getElem.mp (mem_usableFrames.mpr ⟨r, hr, hu, hf⟩)
      refine List.mem_iff_getElem?.mpr ⟨x, ?_⟩
      rw [List.getElem?_take_of_lt (by omega), hget, if_pos (by omega), List.getElem?_eq_getElem hx]
    · cases hi
  · rw [hget] at hi ⊢
    split at hi
    · have hlen := List.getElem?_eq_none_iff.mp (Option.some.inj hi)
      rw [if_pos (by simpa using hj), List.getElem?_eq_none (by omega)]
    · cases hi

/-- **The allocator hands out every usable frame once**, in map order, and nothing after that.
Calls that do not panic return that.  None of `n` calls panics if the running index can count them
and the first `n` usable frames lie in the physical address space, and only then. -/
theorem calls_handOut (hk : crates.Documented) (hfits : UsableFit memMap)
    (h : memMap.Pairwise MemoryRegion.Disjoint) (n : ℕ) :
    (∀ results, (BootInfoFrameAllocator.init memMap).calls crates n = some results →
      results.length = n ∧ HandsOut memMap results) ∧
    ((∃ results, (BootInfoFrameAllocator.init memMap).calls crates n = some results) ↔
      n < 2 ^ 64 ∧ Physical memMap n) := by
  have hcalls := calls_eq hk hfits 0 n
  rw [Nat.zero_add, ← List.range_eq_range'] at hcalls
  have hiff : (n = 0 ∨ n < 2 ^ 64 ∧ Physical memMap n) ↔ n < 2 ^ 64 ∧ Physical memMap n := by
    refine or_iff_right_of_imp ?_
    rintro rfl
    exact ⟨by omega, by simp [Physical]⟩
  rw [BootInfoFrameAllocator.init, hcalls]
  simp only [hiff]
  split
  · next hok =>
    refine ⟨fun results hres => ?_, iff_of_true ⟨_, rfl⟩ hok⟩
    obtain rfl := Option.some.inj hres
    exact ⟨by simp, handsOut_range h n⟩
  · next hok =>
    refine ⟨fun results hres => ?_, iff_of_false ?_ hok⟩
    · cases hres
    · rintro ⟨results, hres⟩
      cases hres

/-- Crates that do what they are documented to do; an address that does not fit panics. -/
def frameCrates : FrameCrates where
  startAddr r :=
    if r.startFrameNumber * 4096 < 2 ^ 64 then some (r.startFrameNumber * 4096) else none
  endAddr r := if r.endFrameNumber * 4096 < 2 ^ 64 then some (r.endFrameNumber * 4096) else none
  physAddr addr := if addr < 2 ^ 52 then some addr else none
  containingAddress addr := ⟨addr / 4096 * 4096⟩

theorem frameCrates_documented : frameCrates.Documented where
  startAddr _ h := if_pos h
  endAddr _ h := if_pos h
  physAddr_of_lt _ h := if_pos h
  physAddr_of_ge _ h := if_neg (Nat.not_lt.mpr h)
  containingAddress _ _ := rfl

/-- Two usable regions with a reserved one between them, called four times. -/
theorem twoRegions_handOut :
    let memMap : List MemoryRegion := [⟨1, 3, .usable⟩, ⟨3, 4, .other⟩, ⟨8, 9, .usable⟩]
    memMap.Pairwise MemoryRegion.Disjoint ∧
      ∃ results, (BootInfoFrameAllocator.init memMap).calls frameCrates 4 = some results ∧
        results = [some (frame 1), some (frame 2), some (frame 8), none] ∧
        HandsOut memMap results := by
  intro memMap
  have hdisj : memMap.Pairwise MemoryRegion.Disjoint := by
    simp [memMap, MemoryRegion.disjoint_of_le]
  have hfits : UsableFit memMap := by
    unfold UsableFit
    decide
  have hcalls : (BootInfoFrameAllocator.init memMap).calls frameCrates 4 =
      some [some (frame 1), some (frame 2), some (frame 8), none] := by decide +kernel
  refine ⟨hdisj, _, hcalls, rfl, ?_⟩
  exact ((calls_handOut frameCrates_documented hfits hdisj 4).1 _ hcalls).2

/-- A usable frame beyond the physical address space makes the first call panic, and on a map with
no region at all the running index overflows in the end. -/
theorem calls_panic :
    (List.Pairwise MemoryRegion.Disjoint [⟨2 ^ 40, 2 ^ 40 + 1, .usable⟩] ∧
      (BootInfoFrameAllocator.init [⟨2 ^ 40, 2 ^ 40 + 1, .usable⟩]).calls frameCrates 1 = none) ∧
    (List.Pairwise MemoryRegion.Disjoint [] ∧
      (BootInfoFrameAllocator.init []).calls frameCrates (2 ^ 64) = none) := by
  have hfits : UsableFit [] := fun r hr => absurd hr List.not_mem_nil
  refine ⟨⟨by simp, by decide +kernel⟩, .nil, ?_⟩
  rw [BootInfoFrameAllocator.init, calls_eq frameCrates_documented hfits, if_neg (by simp)]

end RustOS
end OSLib
