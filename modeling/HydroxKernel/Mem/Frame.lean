import Mathlib.Data.List.Induction
import Mathlib.Data.List.Nodup
import Mathlib.Tactic.Ring
import HydroxKernel.Lib.Runs

/-!
# The Physical Frame Allocator

`StackFrameAllocator` keeps the free page frames on a stack that is stored inside the
free frames themselves. A stack page holds `512` entries: entry `0` is the address of the
stack page below it, and the entries from `1` on are free frames. The page itself counts
as the first frame it stands for, so the number of entries in use on the top page is
implied by `num_frames_available` modulo `512`.

Physical addresses are natural numbers and memory is word addressed: `mem a` is the eight-byte
word at the physical address `a`, and entry `i` of the stack page at `p` is the word at
`p + 8 * i`. Translating a physical address into a pointer and back is the identity on physical
addresses, so `stack_top` is kept as a physical address.

## Main results

* `Represents`: the memory and the allocator represent a list of frames, oldest first.
* `freeOne_represents`, `allocOne_represents`, `allocMany_represents`: the operations push and pop.
* `stackFrameAllocator_refines_stack`: **every run refines a LIFO stack**, and every
  frame that stores entries is itself on the stack.
-/

namespace HydroxKernel.Frame

/-- The size of a page frame in bytes. -/
def pageSize : ℕ := 4096

/-- `NUM_FRAMES_PER_PAGE`: the number of eight-byte addresses that fit in a frame. -/
def numFramesPerPage : ℕ := pageSize / 8

/-- The panics of the frame allocator. -/
inductive Panic
  /-- The `assert_ne!` of `frames_on_top_stack_frame`. -/
  | assertNe
  /-- An `unwrap` of `None`. -/
  | unwrapNone
  deriving DecidableEq

/-- `StackFrameAllocator`. -/
structure StackFrameAllocator where
  numFramesAvailable : ℕ
  stackTop : Option ℕ
  deriving DecidableEq

/-- The allocator together with the physical memory it stores its list in. -/
structure State where
  alloc : StackFrameAllocator
  mem : ℕ → ℕ

/-- `StackFrameAllocator::new`. -/
def StackFrameAllocator.new : StackFrameAllocator := ⟨0, none⟩

/-- The address of entry `i` of the stack page at `page`. -/
def slot (page : ℕ) (i : ℕ) : ℕ := page + 8 * i

/-- Unwraps an `Option`, panicking on `None`. -/
def unwrap {α : Type} : Option α → Except Panic α
  | some a => .ok a
  | none => .error .unwrapNone

/-- `frames_on_top_stack_frame`. -/
def framesOnTopStackFrame (s : State) : Except Panic ℕ :=
  if s.alloc.numFramesAvailable = 0 then .error .assertNe
  else
    let n := s.alloc.numFramesAvailable % numFramesPerPage
    if n = 0 then .ok numFramesPerPage else .ok n

/-- `free_one`. -/
def freeOne (s : State) (frame : ℕ) : Except Panic State :=
  if s.alloc.numFramesAvailable = 0 then
    .ok ⟨⟨s.alloc.numFramesAvailable + 1, some frame⟩, Function.update s.mem (slot frame 0) 0⟩
  else do
    let i ← framesOnTopStackFrame s
    let top ← unwrap s.alloc.stackTop
    if i = numFramesPerPage then
      .ok ⟨⟨s.alloc.numFramesAvailable + 1, some frame⟩,
        Function.update s.mem (slot frame 0) top⟩
    else
      .ok ⟨⟨s.alloc.numFramesAvailable + 1, s.alloc.stackTop⟩,
        Function.update s.mem (slot top i) frame⟩

/-- `alloc_one`. -/
def allocOne (s : State) : Except Panic (Option ℕ × State) :=
  if s.alloc.numFramesAvailable = 0 then .ok (none, s)
  else do
    let i ← framesOnTopStackFrame s
    let top ← unwrap s.alloc.stackTop
    if i = 1 then
      let below := if s.alloc.numFramesAvailable = 1 then none else some (s.mem (slot top 0))
      .ok (some top, ⟨⟨s.alloc.numFramesAvailable - 1, below⟩, s.mem⟩)
    else
      .ok (some (s.mem (slot top (i - 1))),
        ⟨⟨s.alloc.numFramesAvailable - 1, s.alloc.stackTop⟩, s.mem⟩)

/-- `free_many`: the frames are freed in the order given. -/
def freeMany (s : State) : List ℕ → Except Panic State
  | [] => .ok s
  | frame :: frames => do
      let s' ← freeOne s frame
      freeMany s' frames

/-- The loop of `alloc_many`, over the number of entries still to be filled. -/
def allocManyLoop (s : State) : ℕ → Except Panic (List ℕ × State)
  | 0 => .ok ([], s)
  | k + 1 => do
      let (frame, s') ← allocOne s
      let frame ← unwrap frame
      let (frames, s'') ← allocManyLoop s' k
      .ok (frame :: frames, s'')

/-- `alloc_many` into a slice of length `k`. -/
def allocMany (s : State) (k : ℕ) : Except Panic (Option (List ℕ) × State) :=
  if s.alloc.numFramesAvailable < k then .ok (none, s)
  else do
    let (frames, s') ← allocManyLoop s k
    .ok (some frames, s')

/-- The pages found from `page` by following entry `0`, `n` pages at most. -/
def storagePages (mem : ℕ → ℕ) : ℕ → Option ℕ → List ℕ
  | 0, _ => []
  | _ + 1, none => []
  | n + 1, some page => page :: storagePages mem n (some (mem (slot page 0)))

/-- The frames the allocator stores its list in: one for every `512` frames available. -/
def State.storage (s : State) : List ℕ :=
  storagePages s.mem ((s.alloc.numFramesAvailable + 511) / 512) s.alloc.stackTop

/-! ### The represented list -/

/-- The allocator and its memory represent the frames `fs`, oldest first: frame `512 * j`
is the `j`-th stack page, it links to the page below it, and it holds the frames up to
the next page. -/
structure Represents (s : State) (fs : List ℕ) : Prop where
  num : s.alloc.numFramesAvailable = fs.length
  top : s.alloc.stackTop = if fs = [] then none else fs[512 * ((fs.length - 1) / 512)]?
  entry : ∀ k f p, fs[k]? = some f → fs[512 * (k / 512)]? = some p → k % 512 ≠ 0 →
    s.mem (slot p (k % 512)) = f
  link : ∀ k f p, fs[k]? = some f → fs[k - 512]? = some p → k % 512 = 0 → k ≠ 0 →
    s.mem (slot f 0) = p
  aligned : ∀ f ∈ fs, f % pageSize = 0
  nodup : fs.Nodup

/-- Entries of page-aligned frames do not overlap. -/
theorem slot_inj {p q : ℕ} {i j : ℕ} (hp : p % pageSize = 0) (hq : q % pageSize = 0)
    (hi : i < 512) (hj : j < 512) (h : slot p i = slot q j) : p = q ∧ i = j := by
  simp only [slot, pageSize] at *
  omega

/-- The empty allocator represents the empty stack, whatever the memory holds. -/
theorem represents_new (mem : ℕ → ℕ) : Represents ⟨StackFrameAllocator.new, mem⟩ [] where
  num := rfl
  top := rfl
  entry := by simp
  link := by simp
  aligned := by simp
  nodup := List.nodup_nil

section Represents

variable {s : State} {fs : List ℕ}

/-- The page that holds the last frame is on the list. -/
theorem exists_top (hne : fs ≠ []) : ∃ p, fs[512 * ((fs.length - 1) / 512)]? = some p := by
  have hpos : 0 < fs.length := List.length_pos_iff.mpr hne
  have hlt : 512 * ((fs.length - 1) / 512) < fs.length := by omega
  exact ⟨_, List.getElem?_eq_getElem hlt⟩

/-- The number of entries in use on the top page. -/
theorem framesOnTopStackFrame_eq (h : Represents s fs) (hne : fs ≠ []) :
    framesOnTopStackFrame s = .ok ((fs.length - 1) % 512 + 1) := by
  have hpos : 0 < fs.length := List.length_pos_iff.mpr hne
  simp only [framesOnTopStackFrame, h.num, numFramesPerPage, pageSize]
  rw [if_neg (by omega)]
  by_cases hz : fs.length % 512 = 0
  · rw [if_pos (by simpa using hz)]
    congr 1
    omega
  · rw [if_neg (by simpa using hz)]
    congr 1
    omega

/-- A write outside the entries in use keeps what is represented. -/
theorem Represents.frame (h : Represents s fs) {a v : ℕ}
    (hentry : ∀ k f p, fs[k]? = some f → fs[512 * (k / 512)]? = some p → k % 512 ≠ 0 →
      a ≠ slot p (k % 512))
    (hlink : ∀ k f, fs[k]? = some f → k % 512 = 0 → k ≠ 0 → a ≠ slot f 0) :
    Represents ⟨s.alloc, Function.update s.mem a v⟩ fs where
  num := h.num
  top := h.top
  entry k f p hf hp hk := by
    change Function.update s.mem a v _ = f
    rw [Function.update_of_ne (hentry k f p hf hp hk).symm]
    exact h.entry k f p hf hp hk
  link k f p hf hp hk hk0 := by
    change Function.update s.mem a v _ = p
    rw [Function.update_of_ne (hlink k f hf hk hk0).symm]
    exact h.link k f p hf hp hk hk0
  aligned := h.aligned
  nodup := h.nodup

/-- An entry of a grown list past the old ones is the one that was added. -/
theorem eq_of_getElem?_concat {frame k f : ℕ} (hf : (fs ++ [frame])[k]? = some f)
    (hge : fs.length ≤ k) : k = fs.length ∧ f = frame := by
  have hk := (List.getElem?_eq_some_iff.mp hf).1
  simp only [List.length_append, List.length_singleton] at hk
  obtain rfl : k = fs.length := by omega
  exact ⟨rfl, by simpa using hf.symm⟩

/-- The list grows by one frame when the memory already holds its entry. -/
theorem Represents.concat (h : Represents s fs) {frame : ℕ} {top : Option ℕ}
    (hal : frame % pageSize = 0) (hnew : frame ∉ fs)
    (htop : top = (fs ++ [frame])[512 * (fs.length / 512)]?)
    (hentry : ∀ p, fs[512 * (fs.length / 512)]? = some p → fs.length % 512 ≠ 0 →
      s.mem (slot p (fs.length % 512)) = frame)
    (hlink : ∀ p, fs[fs.length - 512]? = some p → fs.length % 512 = 0 → fs ≠ [] →
      s.mem (slot frame 0) = p) :
    Represents ⟨⟨s.alloc.numFramesAvailable + 1, top⟩, s.mem⟩ (fs ++ [frame]) where
  num := by simp [h.num]
  top := by simp [htop]
  entry k f p hf hp hk := by
    rcases lt_or_ge k fs.length with hlt | hge
    · rw [List.getElem?_append_left hlt] at hf
      rw [List.getElem?_append_left (by omega)] at hp
      exact h.entry k f p hf hp hk
    · obtain ⟨rfl, rfl⟩ := eq_of_getElem?_concat hf hge
      rw [List.getElem?_append_left (by omega)] at hp
      exact hentry p hp hk
  link k f p hf hp hk hk0 := by
    rcases lt_or_ge k fs.length with hlt | hge
    · rw [List.getElem?_append_left hlt] at hf
      rw [List.getElem?_append_left (by omega)] at hp
      exact h.link k f p hf hp hk hk0
    · obtain ⟨rfl, rfl⟩ := eq_of_getElem?_concat hf hge
      rw [List.getElem?_append_left (by omega)] at hp
      exact hlink p hp hk (fun hnil => hk0 (by simp [hnil]))
  aligned f hf := by
    rcases List.mem_append.mp hf with hf | hf
    · exact h.aligned f hf
    · rw [List.mem_singleton.mp hf]
      exact hal
  nodup := by
    refine List.nodup_append.mpr ⟨h.nodup, List.nodup_singleton _, ?_⟩
    intro a ha b hb
    rw [List.mem_singleton.mp hb]
    exact fun hab => hnew (hab ▸ ha)

/-- The list without its newest frame is represented by the same memory. -/
theorem Represents.dropLast {frame : ℕ} (h : Represents s (fs ++ [frame])) {top : Option ℕ}
    (htop : top = if fs = [] then none else fs[512 * ((fs.length - 1) / 512)]?) :
    Represents ⟨⟨s.alloc.numFramesAvailable - 1, top⟩, s.mem⟩ fs where
  num := by simp [h.num]
  top := htop
  entry k f p hf hp hk := by
    have hk' := (List.getElem?_eq_some_iff.mp hf).1
    have hk'' : 512 * (k / 512) < fs.length := by omega
    exact h.entry k f p ((List.getElem?_append_left hk').trans hf)
      ((List.getElem?_append_left hk'').trans hp) hk
  link k f p hf hp hk hk0 := by
    have hk' := (List.getElem?_eq_some_iff.mp hf).1
    have hk'' : k - 512 < fs.length := by omega
    exact h.link k f p ((List.getElem?_append_left hk').trans hf)
      ((List.getElem?_append_left hk'').trans hp) hk hk0
  aligned f hf := h.aligned f (by simp [hf])
  nodup := (List.nodup_append.mp h.nodup).1

end Represents

/-! ### The operations on the represented list -/

section Operations

variable {s : State} {fs : List ℕ}

/-- `free_one` pushes the frame. -/
theorem freeOne_represents (h : Represents s fs) {frame : ℕ} (hal : frame % pageSize = 0)
    (hnew : frame ∉ fs) : ∃ s', freeOne s frame = .ok s' ∧ Represents s' (fs ++ [frame]) := by
  have hlink0 : ∀ k f : ℕ, fs[k]? = some f → slot frame 0 ≠ slot f 0 := by
    intro k f hf heq
    have hmem := List.mem_of_getElem? hf
    obtain ⟨rfl, -⟩ := slot_inj hal (h.aligned f hmem) (by omega) (by omega) heq
    exact hnew hmem
  have hentry0 : ∀ k p : ℕ, fs[512 * (k / 512)]? = some p → slot frame 0 ≠ slot p (k % 512) := by
    intro k p hp heq
    have hmem := List.mem_of_getElem? hp
    obtain ⟨rfl, -⟩ := slot_inj hal (h.aligned p hmem) (by omega) (by omega) heq
    exact hnew hmem
  by_cases hnil : fs = []
  · -- the freed frame becomes the only stack page
    subst hnil
    have hnum : s.alloc.numFramesAvailable = 0 := h.num
    refine ⟨_, by simp only [freeOne, hnum, if_pos]; rfl, ?_⟩
    have h' : Represents ⟨s.alloc, Function.update s.mem (slot frame 0) 0⟩ [] :=
      h.frame (by simp) (by simp)
    have htop : some frame = ([] ++ [frame])[512 * (([] : List ℕ).length / 512)]? := by simp
    have hc := h'.concat hal hnew htop (by simp) (by simp)
    rwa [hnum] at hc
  have hpos : 0 < fs.length := List.length_pos_iff.mpr hnil
  obtain ⟨p, hp⟩ := exists_top hnil
  have htop : s.alloc.stackTop = some p := by rw [h.top, if_neg hnil, hp]
  have hnum : s.alloc.numFramesAvailable ≠ 0 := by rw [h.num]; omega
  simp only [freeOne, if_neg hnum, framesOnTopStackFrame_eq h hnil, htop, unwrap, bind,
    Except.bind, numFramesPerPage, pageSize]
  by_cases hfull : (fs.length - 1) % 512 + 1 = 512
  · -- the top page is full: the freed frame becomes the new top page
    rw [if_pos (by omega)]
    refine ⟨_, rfl, ?_⟩
    have h' : Represents ⟨s.alloc, Function.update s.mem (slot frame 0) p⟩ fs :=
      h.frame (fun k f q hf hq hk => hentry0 k q hq) fun k f hf _ _ => hlink0 k f hf
    refine h'.concat hal hnew ?_ (fun q _ hk => absurd hk (by omega)) ?_
    · have : 512 * (fs.length / 512) = fs.length := by omega
      simp [this]
    · intro q hq _ _
      have hidx : fs.length - 512 = 512 * ((fs.length - 1) / 512) := by omega
      rw [hidx, hp] at hq
      change Function.update s.mem _ p _ = q
      rw [Function.update_self]
      exact Option.some.inj hq
  · -- the freed frame goes into the next entry of the top page
    rw [if_neg (by omega)]
    refine ⟨_, rfl, ?_⟩
    have hpmem := List.mem_of_getElem? hp
    have hidx : 512 * (fs.length / 512) = 512 * ((fs.length - 1) / 512) := by omega
    have hi : (fs.length - 1) % 512 + 1 = fs.length % 512 := by omega
    rw [hi]
    have h' : Represents ⟨s.alloc, Function.update s.mem (slot p (fs.length % 512)) frame⟩ fs := by
      refine h.frame (fun k f q hf hq hk heq => ?_) fun k f hf hk _ heq => ?_
      · have hk' := (List.getElem?_eq_some_iff.mp hf).1
        obtain ⟨rfl, hmod⟩ := slot_inj (h.aligned p hpmem)
          (h.aligned q (List.mem_of_getElem? hq)) (by omega) (by omega) heq
        have hsame := (List.getElem?_inj (by omega) h.nodup).mp (hp.trans hq.symm)
        omega
      · obtain ⟨rfl, hmod⟩ := slot_inj (h.aligned p hpmem)
          (h.aligned f (List.mem_of_getElem? hf)) (by omega) (by omega) heq
        omega
    rw [← htop]
    refine h'.concat hal hnew ?_ (fun q hq _ => ?_) fun q _ hk => absurd hk (by omega)
    · rw [List.getElem?_append_left (by omega), hidx, hp, htop]
    · rw [hidx, hp] at hq
      obtain rfl : p = q := Option.some.inj hq
      simp

/-- `alloc_one` on the empty allocator returns `None` and changes nothing. -/
theorem allocOne_nil (h : Represents s []) : allocOne s = .ok (none, s) := by
  have hnum : s.alloc.numFramesAvailable = 0 := h.num
  simp only [allocOne, hnum, if_pos]

/-- `alloc_one` pops the newest frame. -/
theorem allocOne_represents {frame : ℕ} (h : Represents s (fs ++ [frame])) :
    ∃ s', allocOne s = .ok (some frame, s') ∧ s'.mem = s.mem ∧ Represents s' fs := by
  have hne : fs ++ [frame] ≠ [] := by simp
  obtain ⟨p, hp⟩ := exists_top hne
  have htop : s.alloc.stackTop = some p := by rw [h.top, if_neg hne, hp]
  have hnum : s.alloc.numFramesAvailable = fs.length + 1 := by simp [h.num]
  have hlen : (fs ++ [frame]).length - 1 = fs.length := by simp
  rw [hlen] at hp
  have hnum0 : s.alloc.numFramesAvailable ≠ 0 := by omega
  simp only [allocOne, if_neg hnum0, framesOnTopStackFrame_eq h hne, htop, unwrap, bind,
    Except.bind, hlen]
  by_cases hone : fs.length % 512 = 0
  · -- the top page itself is handed out, and the page below it becomes the top page
    rw [if_pos (by omega)]
    have hidx : 512 * (fs.length / 512) = fs.length := by omega
    obtain rfl : frame = p := by simpa [hidx] using hp
    refine ⟨_, rfl, rfl, h.dropLast ?_⟩
    by_cases hnil : fs = []
    · simp [hnum, hnil]
    · have hpos : 0 < fs.length := List.length_pos_iff.mpr hnil
      obtain ⟨q, hq⟩ := exists_top hnil
      have hbelow : 512 * ((fs.length - 1) / 512) = fs.length - 512 := by omega
      rw [if_neg (by omega), if_neg hnil, hq]
      congr 1
      refine h.link fs.length frame q (by simp) ?_ hone (by omega)
      rw [List.getElem?_append_left (by omega), ← hbelow]
      exact hq
  · -- the newest frame is an entry of the top page, which stays the top page
    rw [if_neg (by omega)]
    have hsub : fs.length % 512 + 1 - 1 = fs.length % 512 := by omega
    have hentry := h.entry fs.length frame p (by simp) hp hone
    rw [hsub, hentry]
    refine ⟨_, rfl, rfl, h.dropLast ?_⟩
    have hnil : fs ≠ [] := fun hnil => hone (by simp [hnil])
    have hpos : 0 < fs.length := List.length_pos_iff.mpr hnil
    have hidx : 512 * ((fs.length - 1) / 512) = 512 * (fs.length / 512) := by omega
    rw [if_neg hnil, hidx, ← hp, List.getElem?_append_left (by omega)]

/-- `free_many` pushes the frames in order. -/
theorem freeMany_represents (h : Represents s fs) {frames : List ℕ}
    (hal : ∀ f ∈ frames, f % pageSize = 0) (hnew : ∀ f ∈ frames, f ∉ fs)
    (hnd : frames.Nodup) : ∃ s', freeMany s frames = .ok s' ∧ Represents s' (fs ++ frames) := by
  induction frames generalizing s fs with
  | nil => exact ⟨s, rfl, by simpa using h⟩
  | cons f frames ih =>
      obtain ⟨hf, hnd'⟩ := List.nodup_cons.mp hnd
      obtain ⟨s₁, h₁, hr₁⟩ := freeOne_represents h (hal f (by simp)) (hnew f (by simp))
      have hnew' : ∀ g ∈ frames, g ∉ fs ++ [f] := by
        intro g hg hmem
        rcases List.mem_append.mp hmem with hmem | hmem
        · exact hnew g (by simp [hg]) hmem
        · exact hf (List.mem_singleton.mp hmem ▸ hg)
      obtain ⟨s₂, h₂, hr₂⟩ := ih hr₁ (fun g hg => hal g (by simp [hg])) hnew' hnd'
      refine ⟨s₂, ?_, by simpa using hr₂⟩
      simp only [freeMany, h₁, bind, Except.bind]
      exact h₂

/-- The loop of `alloc_many` pops the newest frames, newest first. -/
theorem allocManyLoop_represents {frames : List ℕ} (h : Represents s (fs ++ frames)) :
    ∃ s', allocManyLoop s frames.length = .ok (frames.reverse, s') ∧ Represents s' fs := by
  induction frames using List.reverseRecOn generalizing s with
  | nil => exact ⟨s, rfl, by simpa using h⟩
  | append_singleton frames f ih =>
      rw [← List.append_assoc] at h
      obtain ⟨s₁, h₁, -, hr₁⟩ := allocOne_represents h
      obtain ⟨s₂, h₂, hr₂⟩ := ih hr₁
      refine ⟨s₂, ?_, hr₂⟩
      simp only [List.length_append, List.length_singleton, allocManyLoop, h₁, unwrap, h₂,
        bind, Except.bind, List.reverse_append, List.reverse_singleton, List.singleton_append]

/-- `alloc_many` fails without effect when too few frames are left. -/
theorem allocMany_none (h : Represents s fs) {k : ℕ} (hk : fs.length < k) :
    allocMany s k = .ok (none, s) := by
  simp only [allocMany, h.num, if_pos hk]

/-- `alloc_many` pops the `k` newest frames, newest first. -/
theorem allocMany_represents {frames : List ℕ} (h : Represents s (fs ++ frames)) :
    ∃ s', allocMany s frames.length = .ok (some frames.reverse, s') ∧ Represents s' fs := by
  obtain ⟨s', h', hr⟩ := allocManyLoop_represents h
  refine ⟨s', ?_, hr⟩
  have hnum : s.alloc.numFramesAvailable = fs.length + frames.length := by simp [h.num]
  have hle : ¬ s.alloc.numFramesAvailable < frames.length := by omega
  simp only [allocMany, if_neg hle, h', bind, Except.bind]

/-- The pages found from a stack page downwards are frames of the list. -/
theorem storagePages_subset (h : Represents s fs) {j p : ℕ} (hp : fs[512 * j]? = some p) :
    ∀ q ∈ storagePages s.mem (j + 1) (some p), q ∈ fs := by
  induction j generalizing p with
  | zero =>
      intro q hq
      obtain rfl : q = p := by simpa [storagePages] using hq
      exact List.mem_of_getElem? hp
  | succ j ih =>
      have hlt := (List.getElem?_eq_some_iff.mp hp).1
      have hlt' : 512 * j < fs.length := by omega
      have hsub : 512 * (j + 1) - 512 = 512 * j := by omega
      have hbelow : fs[512 * (j + 1) - 512]? = some fs[512 * j] := by
        rw [hsub]
        exact List.getElem?_eq_getElem hlt'
      have hlink := h.link (512 * (j + 1)) p _ hp hbelow (by omega) (by omega)
      intro q hq
      rw [storagePages, List.mem_cons] at hq
      rcases hq with rfl | hq
      · exact List.mem_of_getElem? hp
      · rw [hlink] at hq
        exact ih (List.getElem?_eq_getElem hlt') q hq

/-- Every frame that stores entries is itself on the list. -/
theorem storage_subset (h : Represents s fs) : ∀ p ∈ s.storage, p ∈ fs := by
  intro p hp
  by_cases hnil : fs = []
  · have htop : s.alloc.stackTop = none := by rw [h.top, if_pos hnil]
    have hnum : s.alloc.numFramesAvailable = 0 := by rw [h.num, hnil]; rfl
    simp [State.storage, htop, hnum, storagePages] at hp
  · have hpos : 0 < fs.length := List.length_pos_iff.mpr hnil
    obtain ⟨q, hq⟩ := exists_top hnil
    have htop : s.alloc.stackTop = some q := by rw [h.top, if_neg hnil, hq]
    have hpages : (fs.length + 511) / 512 = (fs.length - 1) / 512 + 1 := by omega
    rw [State.storage, h.num, htop, hpages] at hp
    exact storagePages_subset h hq p hp

end Operations

/-! ### Runs, and the LIFO stack they refine -/

/-- The operations on the allocator, and writes by the rest of the kernel to memory. -/
inductive Op
  | freeOne (frame : ℕ)
  | freeMany (frames : List ℕ)
  | allocOne
  | allocMany (k : ℕ)
  | write (addr val : ℕ)
  deriving DecidableEq

/-- What an operation returns. -/
inductive Result
  | unit
  | frame (frame : Option ℕ)
  | frames (frames : Option (List ℕ))
  deriving DecidableEq

/-- The frames an operation hands out. -/
def Result.handedOut : Result → List ℕ
  | .unit => []
  | .frame f => f.toList
  | .frames fs => fs.getD []

/-- One operation on the allocator, or one write to memory by the rest of the kernel. -/
def exec (s : State) : Op → Except Panic (Result × State)
  | .freeOne frame => do
      let s' ← freeOne s frame
      .ok (.unit, s')
  | .freeMany frames => do
      let s' ← freeMany s frames
      .ok (.unit, s')
  | .allocOne => do
      let (frame, s') ← allocOne s
      .ok (.frame frame, s')
  | .allocMany k => do
      let (frames, s') ← allocMany s k
      .ok (.frames frames, s')
  | .write addr val => .ok (.unit, ⟨s.alloc, Function.update s.mem addr val⟩)

/-- The same operation on an abstract stack of frames, newest first. -/
def stackExec (stk : List ℕ) : Op → Result × List ℕ
  | .freeOne frame => (.unit, frame :: stk)
  | .freeMany frames => (.unit, frames.reverse ++ stk)
  | .allocOne => (.frame stk.head?, stk.tail)
  | .allocMany k =>
      if stk.length < k then (.frames none, stk) else (.frames (some (stk.take k)), stk.drop k)
  | .write _ _ => (.unit, stk)

/-- What the callers promise: freed frames are page-aligned, not on the stack and not
freed twice at once, and nobody else writes to a frame on the stack. -/
def Permitted (stk : List ℕ) : Op → Prop
  | .freeOne frame => frame % pageSize = 0 ∧ frame ∉ stk
  | .freeMany frames => (∀ f ∈ frames, f % pageSize = 0 ∧ f ∉ stk) ∧ frames.Nodup
  | .allocOne => True
  | .allocMany _ => True
  | .write addr _ => ∀ f ∈ stk, ¬ (f ≤ addr ∧ addr < f + pageSize)

/-- One permitted operation, performed on the allocator and on the abstract stack. -/
def Step (c : State × List ℕ) (op : Op) (c' : State × List ℕ) : Prop :=
  Permitted c.2 op ∧ (∃ r, exec c.1 op = .ok (r, c'.1)) ∧ c'.2 = (stackExec c.2 op).2

/-- A permitted operation returns what the abstract stack returns, and its effect is the
one on the abstract stack. -/
theorem exec_represents {s : State} {stk : List ℕ} (h : Represents s stk.reverse) {op : Op}
    (hop : Permitted stk op) :
    ∃ s', exec s op = .ok ((stackExec stk op).1, s') ∧
      Represents s' (stackExec stk op).2.reverse := by
  cases op with
  | freeOne frame =>
      obtain ⟨s', h', hr⟩ := freeOne_represents h hop.1 (by simpa using hop.2)
      exact ⟨s', by simp [exec, h', stackExec, bind, Except.bind], by simpa [stackExec] using hr⟩
  | freeMany frames =>
      obtain ⟨s', h', hr⟩ := freeMany_represents h (fun f hf => (hop.1 f hf).1)
        (fun f hf => by simpa using (hop.1 f hf).2) hop.2
      exact ⟨s', by simp [exec, h', stackExec, bind, Except.bind], by simpa [stackExec] using hr⟩
  | allocOne =>
      cases stk with
      | nil =>
          exact ⟨s, by simp [exec, allocOne_nil h, stackExec, bind, Except.bind], h⟩
      | cons frame stk =>
          rw [List.reverse_cons] at h
          obtain ⟨s', h', -, hr⟩ := allocOne_represents h
          exact ⟨s', by simp [exec, h', stackExec, bind, Except.bind], hr⟩
  | allocMany k =>
      by_cases hk : stk.length < k
      · refine ⟨s, ?_, by simpa [stackExec, hk] using h⟩
        simp [exec, allocMany_none h (by simpa using hk), stackExec, hk, bind, Except.bind]
      · have hsplit : stk.reverse = (stk.drop k).reverse ++ (stk.take k).reverse := by
          rw [← List.reverse_append, List.take_append_drop]
        rw [hsplit] at h
        obtain ⟨s', h', hr⟩ := allocMany_represents h
        have hlen : (stk.take k).reverse.length = k := by
          rw [List.length_reverse, List.length_take]
          omega
        rw [hlen, List.reverse_reverse] at h'
        refine ⟨s', ?_, by simpa [stackExec, hk] using hr⟩
        simp [exec, h', stackExec, hk, bind, Except.bind]
  | write addr val =>
      refine ⟨_, rfl, ?_⟩
      have hout : ∀ f ∈ stk.reverse, ∀ i < 512, addr ≠ slot f i := by
        intro f hf i hi heq
        refine hop f (by simpa using hf) ⟨?_, ?_⟩ <;> simp only [heq, slot, pageSize] <;> omega
      exact h.frame (fun k f p _ hp _ => hout p (List.mem_of_getElem? hp) _ (by omega))
        fun k f hf _ _ => hout f (List.mem_of_getElem? hf) 0 (by omega)

/-- Every state a run reaches represents the abstract stack of the run. -/
theorem represents_of_runs {mem : ℕ → ℕ} {ops : List Op} {c : State × List ℕ}
    (h : Runs Step (⟨StackFrameAllocator.new, mem⟩, []) ops c) : Represents c.1 c.2.reverse := by
  refine h.invariant (P := fun c => Represents c.1 c.2.reverse) (represents_new mem) ?_
  rintro ⟨s, stk⟩ op ⟨t, stk'⟩ hr ⟨hop, ⟨r, hexec⟩, hstk⟩
  obtain ⟨s', hs', hr'⟩ := exec_represents hr hop
  obtain rfl : s' = t := by
    rw [hs'] at hexec
    exact (Prod.mk.inj (Except.ok.inj hexec)).2
  change stk' = _ at hstk
  rw [hstk]
  exact hr'

/-- **The frame allocator refines a LIFO stack.** In every state reached from `new`, the
count is the depth of the stack, the frames that store entries are on the stack, every
permitted operation returns without panicking what the stack returns (and a failed
`alloc_many` changes nothing), and no frame that is handed out still stores entries. -/
theorem stackFrameAllocator_refines_stack (mem : ℕ → ℕ) (ops : List Op) (s : State)
    (stk : List ℕ) (h : Runs Step (⟨StackFrameAllocator.new, mem⟩, []) ops (s, stk)) :
    s.alloc.numFramesAvailable = stk.length ∧ (∀ p ∈ s.storage, p ∈ stk) ∧
      (∀ op, Permitted stk op → ∃ s', exec s op = .ok ((stackExec stk op).1, s') ∧
        ∀ f ∈ (stackExec stk op).1.handedOut, f ∉ s'.storage) ∧
      ∀ k, stk.length < k → exec s (.allocMany k) = .ok (.frames none, s) := by
  have hr : Represents s stk.reverse := represents_of_runs h
  have hnd : stk.Nodup := by simpa using hr.nodup
  refine ⟨by simpa using hr.num, fun p hp => by simpa using storage_subset hr p hp, ?_, ?_⟩
  · intro op hop
    obtain ⟨s', hs', hr'⟩ := exec_represents hr hop
    refine ⟨s', hs', fun f hf hst => ?_⟩
    have hmem : f ∈ (stackExec stk op).2 := by simpa using storage_subset hr' f hst
    -- the frames handed out are a prefix of a stack without repetitions
    cases op with
    | freeOne | freeMany | write => simp [stackExec, Result.handedOut] at hf
    | allocOne =>
        cases stk with
        | nil => simp [stackExec, Result.handedOut] at hf
        | cons g stk =>
            obtain rfl : f = g := by simpa [stackExec, Result.handedOut, eq_comm] using hf
            exact (List.nodup_cons.mp hnd).1 (by simpa [stackExec] using hmem)
    | allocMany k =>
        by_cases hk : stk.length < k
        · simp [stackExec, hk, Result.handedOut] at hf
        · simp only [stackExec, if_neg hk, Result.handedOut, Option.getD_some] at hf hmem
          rw [← List.take_append_drop k stk] at hnd
          exact (List.nodup_append.mp hnd).2.2 f hf f hmem rfl
  · intro k hk
    simp [exec, allocMany_none hr (by simpa using hk), bind, Except.bind]

/-- A run that frees two frames and takes one back: the older one is left, and it is the
next one to be handed out. -/
theorem stackFrameAllocator_refines_stack_two_frames :
    ∃ s, Runs Step (⟨StackFrameAllocator.new, fun _ => 0⟩, [])
        [.freeMany [4096, 8192], .allocOne] (s, [4096]) ∧
      s.alloc.numFramesAvailable = 1 ∧ (∀ p ∈ s.storage, p ∈ [4096]) ∧
      ∃ s', exec s .allocOne = .ok (.frame (some 4096), s') := by
  let mem : ℕ → ℕ := Function.update (Function.update (fun _ => 0) 4096 0) 4104 8192
  have hrun : Runs Step (⟨StackFrameAllocator.new, fun _ => 0⟩, [])
      [.freeMany [4096, 8192], .allocOne] (⟨⟨1, some 4096⟩, mem⟩, [4096]) := by
    refine Runs.cons (t := (⟨⟨2, some 4096⟩, mem⟩, [8192, 4096]))
      ⟨by simp [Permitted, pageSize], ⟨.unit, rfl⟩, rfl⟩ ?_
    exact Runs.cons ⟨trivial, ⟨.frame (some 8192), rfl⟩, rfl⟩ Runs.refl
  obtain ⟨hnum, hst, hop, -⟩ := stackFrameAllocator_refines_stack _ _ _ _ hrun
  obtain ⟨s', hs', -⟩ := hop .allocOne trivial
  exact ⟨_, hrun, hnum, hst, s', hs'⟩

end HydroxKernel.Frame
