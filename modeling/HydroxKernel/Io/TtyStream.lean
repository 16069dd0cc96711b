import HydroxKernel.Lib.Runs
import HydroxKernel.Io.Tty
import Mathlib.Algebra.GroupWithZero.Nat

/-!
# The Read Queue is a Byte Stream

What was written to the buffers of the calls of `read`, in the order of the calls, followed by
what the ring buffer holds, is what was pushed. The reason is that one of the two stores is
always empty: while a request is pending the ring buffer is empty, and only the first request
that is pending has received anything.

## Main results

* `Served`: how the calls of `read` and the pending requests belong together.
* `pushBytes_spec` and `read_spec`: what a push and a read do to the stream.
* `tty_stream_of_runs`: the stream, in every run.
-/

namespace HydroxKernel.Tty

variable {N : ℕ}

/-! ### Buffers -/

/-- The bytes that were written to the buffer of a call. -/
def Read.written (r : Read) : List UInt8 := r.bytes.filterMap id

/-- A buffer of length `len` that begins with the bytes `w` and is not written beyond them. -/
def filled (len : ℕ) (w : List UInt8) : List (Option UInt8) :=
  w.map some ++ List.replicate (len - w.length) none

/-- Bytes that are written are written. -/
theorem filterMap_map_some (w : List UInt8) : (w.map some).filterMap id = w := by
  rw [List.filterMap_map]
  exact List.filterMap_some

/-- What was written to a buffer. -/
theorem filterMap_filled (len : ℕ) (w : List UInt8) : (filled len w).filterMap id = w := by
  rw [filled, List.filterMap_append, filterMap_map_some, List.filterMap_replicate_of_none rfl,
    List.append_nil]

/-- A buffer keeps its length. -/
theorem length_filled {len : ℕ} {w : List UInt8} (h : w.length ≤ len) :
    (filled len w).length = len := by
  rw [filled, List.length_append, List.length_map, List.length_replicate]
  omega

/-- A buffer that is full. -/
theorem filled_full {len : ℕ} {w : List UInt8} (h : w.length = len) :
    filled len w = w.map some := by
  rw [filled, h, Nat.sub_self, List.replicate_zero, List.append_nil]

/-- Writing right after the bytes that were written. -/
theorem writeSlice_filled (len : ℕ) (w c : List UInt8) :
    writeSlice (filled len w) w.length c = filled len (w ++ c) := by
  have htake : (filled len w).take w.length = w.map some := by
    rw [filled, List.take_append, List.length_map, Nat.sub_self, List.take_zero, List.append_nil,
      List.take_of_length_le (Nat.le_of_eq (List.length_map some))]
  have hdrop : (filled len w).drop (w.length + c.length) =
      List.replicate (len - (w ++ c).length) none := by
    rw [filled, List.drop_append, List.length_map, Nat.add_sub_cancel_left,
      List.drop_of_length_le (by rw [List.length_map]; omega), List.drop_replicate,
      List.length_append, List.nil_append, Nat.sub_sub]
  rw [writeSlice, htake, hdrop, filled, List.map_append]

/-! ### Calls and requests -/

/-- The calls from number `n` on, when one before them is pending: the requests are those of
the calls that asked for any bytes, and nothing has been written for them. -/
inductive Waiting : ℕ → List Read → List Request → Prop
  | nil {n : ℕ} : Waiting n [] []
  | empty {n : ℕ} {rs : List Read} {qs : List Request} (h : Waiting (n + 1) rs qs) :
      Waiting n (⟨[], some (.ok 0)⟩ :: rs) qs
  | pending {n len : ℕ} {rs : List Read} {qs : List Request} (hpos : 0 < len)
      (hlen : len < 2 ^ 64) (h : Waiting (n + 1) rs qs) :
      Waiting n (⟨filled len [], none⟩ :: rs) (⟨n, len, 0⟩ :: qs)

/-- The calls from number `n` on, when none before them is pending: calls whose buffers are
full and whose futures say so, and then the first pending call, whose buffer is filled up to
the position of its request. -/
inductive Served : ℕ → List Read → List Request → Prop
  | nil {n : ℕ} : Served n [] []
  | complete {n : ℕ} {rs : List Read} {qs : List Request} (w : List UInt8)
      (h : Served (n + 1) rs qs) : Served n (⟨w.map some, some (.ok w.length)⟩ :: rs) qs
  | pending {n len : ℕ} {rs : List Read} {qs : List Request} {w : List UInt8}
      (hpos : w.length < len) (hlen : len < 2 ^ 64) (h : Waiting (n + 1) rs qs) :
      Served n (⟨filled len w, none⟩ :: rs) (⟨n, len, w.length⟩ :: qs)

/-- When the call before them is complete, waiting calls are served. -/
theorem Waiting.served {n : ℕ} {rs : List Read} {qs : List Request} (h : Waiting n rs qs) :
    Served n rs qs := by
  induction h with
  | nil => exact .nil
  | empty _ ih => exact .complete [] ih
  | pending hpos hlen h _ => exact .pending hpos hlen h

/-- Nothing has been written for waiting calls. -/
theorem Waiting.written {n : ℕ} {rs : List Read} {qs : List Request} (h : Waiting n rs qs) :
    rs.flatMap Read.written = [] := by
  induction h with
  | nil => rfl
  | empty _ ih =>
      rw [List.flatMap_cons, ih]
      rfl
  | pending hpos hlen h ih =>
      rw [List.flatMap_cons, ih, Read.written, filterMap_filled]
      rfl

/-- A call without a length joins the waiting calls. -/
theorem Waiting.append_empty {n : ℕ} {rs : List Read} {qs : List Request}
    (h : Waiting n rs qs) : Waiting n (rs ++ [⟨[], some (.ok 0)⟩]) qs := by
  induction h with
  | nil => exact .empty .nil
  | empty _ ih => exact .empty ih
  | pending hpos hlen _ ih => exact .pending hpos hlen ih

/-- A call joins the waiting calls. -/
theorem Waiting.append_pending {n len k : ℕ} {rs : List Read} {qs : List Request}
    (h : Waiting n rs qs) (hk : k = n + rs.length) (hpos : 0 < len) (hlen : len < 2 ^ 64) :
    Waiting n (rs ++ [⟨filled len [], none⟩]) (qs ++ [⟨k, len, 0⟩]) := by
  induction h with
  | nil =>
      obtain rfl : k = _ := hk
      exact .pending hpos hlen .nil
  | empty _ ih => exact .empty (ih (by rw [hk, List.length_cons]; omega))
  | pending hpos' hlen' _ ih =>
      exact .pending hpos' hlen' (ih (by rw [hk, List.length_cons]; omega))

/-- A call that is served at once, when none is pending. -/
theorem Served.append_complete {n : ℕ} {rs : List Read} {qs : List Request}
    (h : Served n rs qs) (w : List UInt8) (hw : qs = [] ∨ w = []) :
    Served n (rs ++ [⟨w.map some, some (.ok w.length)⟩]) qs := by
  induction h with
  | nil => exact .complete w .nil
  | complete w' _ ih => exact .complete w' (ih hw)
  | pending hpos hlen h =>
      rcases hw with hw | rfl
      · cases hw
      · exact .pending hpos hlen h.append_empty

/-- A call that becomes a request. It has received bytes only if it is the first one. -/
theorem Served.append_pending {n len k : ℕ} {rs : List Read} {qs : List Request}
    (h : Served n rs qs) (hk : k = n + rs.length) {w : List UInt8} (hw : qs = [] ∨ w = [])
    (hpos : w.length < len) (hlen : len < 2 ^ 64) :
    Served n (rs ++ [⟨filled len w, none⟩]) (qs ++ [⟨k, len, w.length⟩]) := by
  induction h with
  | nil =>
      obtain rfl : k = _ := hk
      exact .pending hpos hlen .nil
  | complete w' _ ih => exact .complete w' (ih (by rw [hk, List.length_cons]; omega) hw)
  | pending hpos' hlen' h =>
      rcases hw with hw | rfl
      · cases hw
      · exact .pending hpos' hlen'
          (h.append_pending (by rw [hk, List.length_cons]; omega) hpos hlen)

/-- The first request: its call comes after complete calls and before waiting ones, and
filling its buffer leaves the calls served. -/
theorem Served.split {n : ℕ} {rs : List Read} {q : Request} {qs : List Request}
    (h : Served n rs (q :: qs)) :
    ∃ pre post w, rs = pre ++ ⟨filled q.len w, none⟩ :: post ∧ q.id = n + pre.length ∧
      q.pos = w.length ∧ w.length < q.len ∧ q.len < 2 ^ 64 ∧
      post.flatMap Read.written = [] ∧
      (∀ w' : List UInt8, w'.length = q.len →
        Served n (pre ++ ⟨w'.map some, some (.ok w'.length)⟩ :: post) qs) ∧
      ∀ w' : List UInt8, w'.length < q.len →
        Served n (pre ++ ⟨filled q.len w', none⟩ :: post) (⟨q.id, q.len, w'.length⟩ :: qs) := by
  generalize hqs : q :: qs = qs' at h
  induction h with
  | nil => cases hqs
  | complete w _ ih =>
      obtain ⟨pre, post, w₀, rfl, hid, hp, hpos, hlen, hpost, hfull, hpart⟩ := ih hqs
      refine ⟨_ :: pre, post, w₀, rfl, by rw [hid, List.length_cons]; omega, hp, hpos, hlen,
        hpost, fun w' hw' => .complete w (hfull w' hw'), fun w' hw' => .complete w (hpart w' hw')⟩
  | pending hpos hlen h =>
      cases hqs
      exact ⟨[], _, _, rfl, rfl, rfl, hpos, hlen, h.written,
        fun w' _ => .complete w' h.served, fun w' hw' => .pending hw' hlen h⟩

/-! ### The invariant -/

/-- What was written to the buffers, in the order of the calls. -/
def State.written (s : State N) : List UInt8 := s.reads.flatMap Read.written

/-- The invariant: the ring buffer holds `l`, which is empty while a request is pending, and
while every push was accepted the bytes written and then `l` are what was pushed. -/
structure Inv (s : State N) (l : List UInt8) : Prop where
  served : Served 0 s.reads s.queue.requests
  buf : s.queue.buf.Represents l
  exclusive : s.queue.requests ≠ [] → l = []
  stream : s.accepted = true → s.written ++ l = s.pushed

/-- The invariant holds before any call. -/
theorem inv_new : Inv (State.new : State N) [] :=
  ⟨.nil, ArrayDeque.represents_new, fun h => absurd rfl h, fun _ => rfl⟩

/-- How many bytes the pending requests ask for. -/
def demand (qs : List Request) : ℕ := (qs.map fun q => q.len - q.pos).sum

/-! ### Pushing -/

/-- Changes one element of a list. -/
theorem modify_append_cons {α : Type} (pre post : List α) (a : α) (f : α → α) :
    (pre ++ a :: post).modify pre.length f = pre ++ f a :: post := by
  induction pre with
  | nil => rfl
  | cons b pre ih => exact congrArg (b :: ·) ih

/-- What one turn of the loop of `push_bytes` does with a request: the request takes as many
bytes as it asks for and as there are. -/
structure Serves (s : State N) (data : List UInt8) (t : State N) (k : ℕ) : Prop where
  served : Served 0 t.reads t.queue.requests
  buf : t.queue.buf = s.queue.buf
  pushed : t.pushed = s.pushed
  accepted : t.accepted = s.accepted
  written : t.written = s.written ++ data.take k
  demand : demand t.queue.requests + k = demand s.queue.requests
  pos : 0 < k
  le : k ≤ data.length

/-- Writing to the buffer of the first request. -/
theorem write_reads {s : State N} {pre post : List Read} {len id : ℕ} {w c : List UInt8}
    (hreads : s.reads = pre ++ ⟨filled len w, none⟩ :: post) (hid : id = pre.length) :
    (s.write id w.length c).reads = pre ++ ⟨filled len (w ++ c), none⟩ :: post := by
  rw [State.write, hreads, hid, modify_append_cons, writeSlice_filled]

/-- What is written where only waiting calls follow. -/
theorem written_of_split {s : State N} {pre post : List Read} {len : ℕ} {w : List UInt8}
    {result : Option (Except Unit ℕ)} (hpost : post.flatMap Read.written = [])
    (hreads : s.reads = pre ++ ⟨filled len w, result⟩ :: post) :
    s.written = pre.flatMap Read.written ++ w := by
  rw [State.written, hreads, List.flatMap_append, List.flatMap_cons, hpost, Read.written,
    filterMap_filled, List.append_nil]

/-- **Serving a request.** -/
theorem serve_spec {s : State N} {q : Request} {qs : List Request} {data : List UInt8}
    (hserved : Served 0 s.reads s.queue.requests) (hqs : s.queue.requests = q :: qs)
    (hdata : data ≠ []) :
    ∃ t k, s.serve q qs data = .ok (t, data.drop k) ∧ Serves s data t k := by
  rw [hqs] at hserved
  obtain ⟨pre, post, w, hreads, hid, hp, hpos, hlen, hpost, hfull, hpart⟩ := hserved.split
  rw [Nat.zero_add] at hid
  have hlength : 0 < data.length := List.length_pos_iff.mpr hdata
  obtain ⟨k, hk⟩ : ∃ k, k = min data.length (q.len - w.length) := ⟨_, rfl⟩
  have hend : min (saturatingAdd w.length data.length) q.len = w.length + k := by
    rw [saturatingAdd]
    omega
  have htake : (data.take k).length = k := by
    rw [List.length_take]
    omega
  have hwrite := write_reads (c := data.take k) hreads hid
  have hdemand : demand s.queue.requests = demand qs + (q.len - w.length) := by
    rw [hqs, demand, List.map_cons, List.sum_cons, hp, demand]
    omega
  have hold : s.written = pre.flatMap Read.written ++ w := written_of_split hpost hreads
  rw [State.serve]
  simp only [hp, hend, Nat.add_sub_cancel_left]
  rw [ensure_pos (Nat.le_add_right _ _), ok_bind]
  by_cases hcase : w.length + k = q.len
  · have hw' : (w ++ data.take k).length = q.len := by
      rw [List.length_append, htake, hcase]
    have hreads' : (((s.write q.id w.length (data.take k)).setRequests qs).cancel
        ⟨q.id, q.len, w.length + k⟩).reads =
        pre ++ ⟨filled q.len (w ++ data.take k), some (.ok q.len)⟩ :: post := by
      have hne : 0 < w.length + k := by omega
      rw [State.cancel, if_pos hne, hcase]
      change List.modify (s.write q.id w.length (data.take k)).reads q.id _ = _
      rw [hwrite, hid, modify_append_cons]
    refine ⟨((s.write q.id w.length (data.take k)).setRequests qs).cancel
      ⟨q.id, q.len, w.length + k⟩, k, ?_, ?_⟩
    · rw [if_pos hcase, State.complete, ensure_pos hcase, ok_bind]
      rfl
    · refine ⟨?_, rfl, rfl, rfl, ?_, ?_, by omega, by omega⟩
      · rw [hreads', filled_full hw', ← hw']
        exact hfull _ hw'
      · rw [written_of_split hpost hreads', hold, List.append_assoc]
      · rw [hdemand]
        change demand qs + k = _
        omega
  · have hw' : (w ++ data.take k).length = w.length + k := by
      rw [List.length_append, htake]
    refine ⟨(s.write q.id w.length (data.take k)).setRequests (⟨q.id, q.len, w.length + k⟩ :: qs),
      k, ?_, ?_⟩
    · rw [if_neg hcase]
      rfl
    · refine ⟨?_, rfl, rfl, rfl, ?_, ?_, by omega, by omega⟩
      · change Served 0 (s.write q.id w.length (data.take k)).reads _
        rw [hwrite, ← hw']
        exact hpart _ (by omega)
      · change (s.write q.id w.length (data.take k)).written = _
        rw [written_of_split hpost hwrite, hold, List.append_assoc]
      · rw [hdemand]
        change demand (⟨q.id, q.len, w.length + k⟩ :: qs) + k = _
        rw [demand, List.map_cons, List.sum_cons, demand]
        dsimp only
        omega

/-- Pushing to the ring buffer takes as many bytes as there is room for. -/
theorem pushAll_spec {buf : ArrayDeque UInt8 N} {l : List UInt8} (h : buf.Represents l)
    (data : List UInt8) :
    ∃ buf', pushAll buf data = .ok (decide (data.length ≤ N - l.length), buf') ∧
      buf'.Represents (l ++ data.take (N - l.length)) := by
  induction data generalizing buf l with
  | nil => exact ⟨buf, by simp [pushAll], by simpa using h⟩
  | cons byte data ih =>
      rw [pushAll]
      rcases Nat.lt_or_ge l.length N with hroom | hfull
      · obtain ⟨buf₁, hpush, h₁⟩ := h.pushBack hroom byte
        obtain ⟨buf', hbuf', h'⟩ := ih h₁
        obtain ⟨m, hm⟩ : ∃ m, N - l.length = m + 1 := ⟨N - l.length - 1, by omega⟩
        have hm' : N - (l ++ [byte]).length = m := by
          rw [List.length_append, List.length_singleton]
          omega
        rw [hm'] at hbuf' h'
        refine ⟨buf', ?_, ?_⟩
        · rw [hpush]
          simp only [hbuf', hm, List.length_cons, Nat.add_le_add_iff_right]
        · rwa [hm, List.take_succ_cons, List.append_cons]
      · have hlen : l.length = N := Nat.le_antisymm h.le hfull
        refine ⟨buf, ?_, ?_⟩
        · rw [h.pushBack_full hlen, hlen]
          simp
        · simpa [hlen] using h

/-- What a push does: the requests and then the ring buffer take the data as far as there is
room, and it returns whether they took all of it. -/
structure Pushes (s : State N) (l data : List UInt8) (all : Bool) (t : State N)
    (l' : List UInt8) : Prop where
  served : Served 0 t.reads t.queue.requests
  buf : t.queue.buf.Represents l'
  exclusive : t.queue.requests ≠ [] → l' = []
  pushed : t.pushed = s.pushed
  accepted : t.accepted = s.accepted
  stream : t.written ++ l' =
    s.written ++ l ++ data.take (demand s.queue.requests + (N - l.length))
  all : all = decide (data.length ≤ demand s.queue.requests + (N - l.length))

/-- A push that returns `true` has taken all of the data. -/
theorem Pushes.stream_of_all {s t : State N} {l data l' : List UInt8}
    (h : Pushes s l data true t l') : t.written ++ l' = s.written ++ l ++ data := by
  have hall : data.length ≤ _ := of_decide_eq_true h.all.symm
  rw [h.stream, List.take_of_length_le hall]

/-- **The loop of `push_bytes` ends**, and pushes. The induction is on the number of turns: a
turn that serves a request takes at least one byte. -/
theorem pushLoop_spec {fuel : ℕ} {s : State N} {l data : List UInt8}
    (hserved : Served 0 s.reads s.queue.requests) (hbuf : s.queue.buf.Represents l)
    (hexcl : s.queue.requests ≠ [] → l = []) (hfuel : data.length < fuel) :
    ∃ all t l', pushLoop fuel s data = .ok (all, t) ∧ Pushes s l data all t l' := by
  induction fuel generalizing s data with
  | zero => exact absurd hfuel (Nat.not_lt_zero _)
  | succ fuel ih =>
      rw [pushLoop]
      by_cases hdata : data = []
      · subst hdata
        exact ⟨true, s, l, if_pos rfl, hserved, hbuf, hexcl, rfl, rfl, by simp, by simp⟩
      · rw [if_neg hdata]
        cases hqs : s.queue.requests with
        | nil =>
            obtain ⟨buf', hpush, hbuf'⟩ := pushAll_spec hbuf data
            refine ⟨decide (data.length ≤ N - l.length), s.setBuf buf',
              l ++ data.take (N - l.length), ?_, ?_⟩
            · simp only [hpush, ok_bind]
              rfl
            · refine ⟨hserved, hbuf', fun hne => absurd hqs hne, rfl, rfl, ?_, ?_⟩
              · change s.written ++ _ = _
                simp [hqs, demand]
              · simp [hqs, demand]
        | cons q qs =>
            obtain rfl : l = [] := hexcl (by rw [hqs]; exact List.cons_ne_nil _ _)
            obtain ⟨t, k, hserve, hs⟩ := serve_spec hserved hqs hdata
            have hdrop : (data.drop k).length = data.length - k := List.length_drop
            have hk := hs.le
            have hk' := hs.pos
            have hd := hs.demand
            obtain ⟨all, u, l', hloop, hp⟩ :=
              @ih t (data.drop k) hs.served (hs.buf ▸ hbuf) (fun _ => rfl) (by omega)
            refine ⟨all, u, l', ?_, ?_⟩
            · simp only [hserve, ok_bind, hloop]
            · refine ⟨hp.served, hp.buf, hp.exclusive, hp.pushed.trans hs.pushed,
                hp.accepted.trans hs.accepted, ?_, ?_⟩
              · have hsum : demand t.queue.requests + k + (N - ([] : List UInt8).length) =
                    k + (demand t.queue.requests + (N - ([] : List UInt8).length)) := by
                  omega
                have htake : ∀ m, data.take (k + m) = data.take k ++ (data.drop k).take m :=
                  fun m => List.take_add
                rw [hp.stream, hs.written, ← hs.demand, hsum, htake]
                simp only [List.append_nil, List.append_assoc]
              · rw [hp.all, hdrop]
                exact decide_eq_decide.mpr (by omega)

/-- **A push ends and pushes.** -/
theorem pushBytes_spec {s : State N} {l : List UInt8} (h : Inv s l) (data : List UInt8) :
    ∃ all t l', s.pushBytes data = .ok (all, t) ∧ Pushes s l data all t l' :=
  pushLoop_spec h.served h.buf h.exclusive (by omega)

/-- What `has_room` promises. -/
theorem Pushes.all_of_hasRoom {s t : State N} {l data l' : List UInt8} {all : Bool}
    (hp : Pushes s l data all t l') (hbuf : s.queue.buf.Represents l)
    (hroom : s.hasRoom data.length = true) : all = true := by
  rw [State.hasRoom, hbuf.len] at hroom
  simp only [Bool.and_eq_true, decide_eq_true_eq] at hroom
  rw [hp.all, decide_eq_true_eq]
  omega

/-- The ring buffer holds no more after a push than before it, but for the data. -/
theorem pushLoop_length {fuel : ℕ} {s t : State N} {l l' data : List UInt8} {all : Bool}
    (hserved : Served 0 s.reads s.queue.requests) (hbuf : s.queue.buf.Represents l)
    (h : pushLoop fuel s data = .ok (all, t)) (hbuf' : t.queue.buf.Represents l') :
    l'.length ≤ l.length + data.length := by
  induction fuel generalizing s data with
  | zero => cases h
  | succ fuel ih =>
      rw [pushLoop] at h
      by_cases hdata : data = []
      · rw [if_pos hdata] at h
        obtain ⟨-, rfl⟩ := Prod.mk.inj (Except.ok.inj h)
        rw [← hbuf.toList_eq, ← hbuf'.toList_eq]
        exact Nat.le_add_right _ _
      · rw [if_neg hdata] at h
        cases hqs : s.queue.requests with
        | nil =>
            obtain ⟨buf', hpush, hrep⟩ := pushAll_spec hbuf data
            rw [hqs] at h
            simp only [hpush, ok_bind] at h
            obtain ⟨-, rfl⟩ := Prod.mk.inj (Except.ok.inj h)
            rw [← hbuf'.toList_eq, show (s.setBuf buf').queue.buf = buf' from rfl, hrep.toList_eq,
              List.length_append, List.length_take]
            omega
        | cons q qs =>
            obtain ⟨t₁, k, hserve, hs⟩ := serve_spec hserved hqs hdata
            rw [hqs] at h
            simp only [hserve, ok_bind] at h
            have hle := ih hs.served (hs.buf ▸ hbuf) h
            rw [List.length_drop] at hle
            omega

/-! ### Reading -/

/-- The loop of `read` takes from the ring buffer what the buffer has room for. -/
theorem readLoop_spec {fuel len : ℕ} {buf : ArrayDeque UInt8 N} {l w : List UInt8}
    (hbuf : buf.Represents l) (hw : w.length ≤ len) (hfuel : len - w.length < fuel) :
    ∃ buf', readLoop fuel buf (filled len w) w.length =
        .ok (buf', filled len (w ++ l.take (len - w.length)),
          (w ++ l.take (len - w.length)).length) ∧
      buf'.Represents (l.drop (len - w.length)) := by
  induction fuel generalizing buf l w with
  | zero => exact absurd hfuel (Nat.not_lt_zero _)
  | succ fuel ih =>
      rw [readLoop]
      rw [length_filled hw]
      rcases Nat.lt_or_ge w.length len with hlt | hge
      · rw [if_pos hlt]
        cases l with
        | nil =>
            refine ⟨buf, ?_, by simpa using hbuf⟩
            rw [hbuf.popFront_nil]
            simp
        | cons b l =>
            obtain ⟨buf₁, hpop, hbuf₁⟩ := hbuf.popFront_cons
            have hw' : (w ++ [b]).length = w.length + 1 := by simp
            obtain ⟨m, hm⟩ : ∃ m, len - w.length = m + 1 := ⟨len - w.length - 1, by omega⟩
            obtain ⟨buf', hloop, hbuf'⟩ := ih (w := w ++ [b]) hbuf₁ (by omega) (by omega)
            have hm' : len - (w ++ [b]).length = m := by omega
            rw [hm', hw', ← writeSlice_filled, ← List.append_cons] at hloop
            rw [hm'] at hbuf'
            refine ⟨buf', ?_, ?_⟩
            · rw [hpop, hm, List.take_succ_cons]
              exact hloop
            · rwa [hm, List.drop_succ_cons]
      · have hz : len - w.length = 0 := by omega
        refine ⟨buf, ?_, by simpa [hz] using hbuf⟩
        rw [if_neg (Nat.not_lt.mpr hge), hz]
        simp

/-- **A read** takes from the stream what it can, and keeps the invariant. -/
theorem read_spec {s : State N} {l : List UInt8} (h : Inv s l) {len : ℕ} (hlen : len < 2 ^ 64) :
    ∃ t l', s.read len = .ok t ∧ Inv t l' := by
  obtain ⟨buf', hloop, hbuf'⟩ :=
    @readLoop_spec N (len + 1) len s.queue.buf l [] h.buf (Nat.zero_le _) (by simp)
  simp only [List.length_nil, List.nil_append, Nat.sub_zero] at hloop hbuf'
  have hstart : filled len [] = List.replicate len none := by simp [filled]
  have htake : (l.take len).length = min len l.length := List.length_take
  have hempty : s.queue.requests = [] ∨ l.take len = [] := by
    by_cases hq : s.queue.requests = []
    · exact .inl hq
    · rw [h.exclusive hq]
      exact .inr List.take_nil
  have hflen : (filled len (l.take len)).length = len := length_filled (by omega)
  have hsplit : s.written ++ l.take len ++ l.drop len = s.written ++ l := by
    rw [List.append_assoc, List.take_append_drop]
  rw [State.read]
  rw [← hstart, hloop, ok_bind]
  simp only [hflen]
  by_cases hfull : (l.take len).length < len
  · have hnil : l.drop len = [] := List.drop_eq_nil_of_le (by omega)
    refine ⟨_, l.drop len, by rw [if_pos hfull]; rfl, ?_⟩
    refine ⟨h.served.append_pending (Nat.zero_add _).symm hempty hfull hlen, hbuf',
      fun _ => hnil, fun hacc => ?_⟩
    change (s.reads ++ [_]).flatMap Read.written ++ _ = s.pushed
    rw [← h.stream hacc, ← hsplit, List.flatMap_append, List.flatMap_singleton, Read.written,
      filterMap_filled]
    rfl
  · have heq : (l.take len).length = len := by omega
    refine ⟨_, l.drop len, by rw [if_neg hfull]; rfl, ?_⟩
    refine ⟨?_, hbuf', fun hq => ?_, fun hacc => ?_⟩
    · change Served 0 (s.reads ++ [⟨filled len (l.take len), some (.ok (l.take len).length)⟩]) _
      rw [filled_full heq]
      exact h.served.append_complete _ hempty
    · rw [h.exclusive hq, List.drop_nil]
    · change (s.reads ++ [_]).flatMap Read.written ++ _ = s.pushed
      rw [← h.stream hacc, ← hsplit, List.flatMap_append, List.flatMap_singleton, Read.written,
        filterMap_filled]
      rfl

/-- A read changes no ledger. -/
theorem read_ledgers {s t : State N} {len : ℕ} (h : s.read len = .ok t) :
    t.pushed = s.pushed ∧ t.accepted = s.accepted := by
  obtain ⟨r, -, h⟩ := bind_eq_ok.mp h
  dsimp only at h
  split at h <;> cases h <;> exact ⟨rfl, rfl⟩

/-! ### Every run -/

/-- A step keeps the invariant. -/
theorem Inv.step {s t : State N} {l : List UInt8} {op : Op} (h : Inv s l) (hs : Step s op t) :
    ∃ l', Inv t l' := by
  obtain ⟨hlen, hperf⟩ := hs
  cases op with
  | push data =>
      obtain ⟨all, u, l', hpush, hp⟩ := pushBytes_spec h data
      simp only [perform, hpush, ok_bind] at hperf
      cases hperf
      refine ⟨l', hp.served, hp.buf, hp.exclusive, fun hacc => ?_⟩
      simp only [Bool.and_eq_true] at hacc
      obtain ⟨hacc, rfl⟩ := hacc
      rw [hp.accepted] at hacc
      change u.written ++ l' = u.pushed ++ data
      rw [hp.stream_of_all, h.stream hacc, hp.pushed]
  | read len =>
      obtain ⟨u, l', hread, hinv⟩ := read_spec h (hlen len rfl)
      simp only [perform, hread] at hperf
      cases hperf
      exact ⟨l', hinv⟩

/-- The buffer of a call is full. -/
def Read.Full (r : Read) : Prop := ∀ b ∈ r.bytes, b ≠ none

/-- The stream: what was written to the buffers, and then what the ring buffer holds. -/
def State.stream (s : State N) : List UInt8 := s.written ++ s.queue.buf.toList

/-- What holds of the read queue in every state that a run reaches. -/
structure Faithful (s : State N) : Prop where
  /-- Nothing is lost, duplicated or reordered. -/
  stream : s.accepted = true → s.stream = s.pushed
  /-- A future resolves exactly when its buffer is full, and then to the length of it. -/
  resolves : ∀ r ∈ s.reads,
    (r.result = some (.ok r.bytes.length) ↔ r.Full) ∧ (r.result = none ↔ ¬ r.Full)
  /-- While a request is pending, the ring buffer is empty. -/
  exclusive : s.queue.requests ≠ [] → s.queue.buf.toList = []
  /-- A push ends. It returns `false` exactly when the bytes left after serving the requests
  exceed the room, and then it has accepted the bytes up to there. -/
  push : ∀ data, ∃ all t, s.pushBytes data = .ok (all, t) ∧
    (all = false ↔
      N - s.queue.buf.toList.length < data.length - demand s.queue.requests) ∧
    t.stream = s.stream ++
      data.take (demand s.queue.requests + (N - s.queue.buf.toList.length)) ∧
    (all = true → t.stream = s.stream ++ data) ∧
    (s.hasRoom data.length = true → all = true)
  /-- A read ends. -/
  read : ∀ len, len < 2 ^ 64 → ∃ t, s.read len = .ok t

/-- Nothing is written beyond the bytes of a call that is not complete. -/
theorem not_full_filled {len : ℕ} {w : List UInt8} (h : w.length < len)
    (result : Option (Except Unit ℕ)) : ¬ Read.Full ⟨filled len w, result⟩ := by
  intro hfull
  refine hfull none (List.mem_append_right _ ?_) rfl
  exact List.mem_replicate.mpr ⟨by omega, rfl⟩

/-- A call is resolved exactly when its buffer is full. -/
def Read.Resolves (r : Read) : Prop :=
  (r.result = some (.ok r.bytes.length) ↔ r.Full) ∧ (r.result = none ↔ ¬ r.Full)

/-- A complete call is resolved. -/
theorem resolves_complete (w : List UInt8) :
    Read.Resolves ⟨w.map some, some (.ok w.length)⟩ := by
  have hfull : Read.Full ⟨w.map some, some (.ok w.length)⟩ := by
    intro b hb
    obtain ⟨a, -, rfl⟩ := List.mem_map.mp hb
    exact Option.some_ne_none a
  exact ⟨by simp [hfull], by simp [hfull]⟩

/-- A pending call is not resolved. -/
theorem resolves_pending {len : ℕ} {w : List UInt8} (h : w.length < len) :
    Read.Resolves ⟨filled len w, none⟩ := by
  have hnot := not_full_filled h none
  exact ⟨by simp [hnot], by simp [hnot]⟩

/-- Waiting calls are resolved exactly when their buffers are full. -/
theorem Waiting.resolves {n : ℕ} {rs : List Read} {qs : List Request} (h : Waiting n rs qs) :
    ∀ r ∈ rs, r.Resolves := by
  induction h with
  | nil => exact fun r hr => nomatch hr
  | empty _ ih => exact List.forall_mem_cons.mpr ⟨resolves_complete [], ih⟩
  | pending hpos _ _ ih => exact List.forall_mem_cons.mpr ⟨resolves_pending hpos, ih⟩

/-- Calls are resolved exactly when their buffers are full. -/
theorem Served.resolves {n : ℕ} {rs : List Read} {qs : List Request} (h : Served n rs qs) :
    ∀ r ∈ rs, r.Resolves := by
  induction h with
  | nil => exact fun r hr => nomatch hr
  | complete w _ ih => exact List.forall_mem_cons.mpr ⟨resolves_complete w, ih⟩
  | pending hpos _ h => exact List.forall_mem_cons.mpr ⟨resolves_pending hpos, h.resolves⟩

/-- The invariant gives the properties. -/
theorem Inv.faithful {s : State N} {l : List UInt8} (h : Inv s l) : Faithful s where
  stream := by
    intro hacc
    rw [State.stream, h.buf.toList_eq]
    exact h.stream hacc
  resolves := h.served.resolves
  exclusive := by
    rw [h.buf.toList_eq]
    exact h.exclusive
  push := by
    intro data
    obtain ⟨all, t, l', hpush, hp⟩ := pushBytes_spec h data
    refine ⟨all, t, hpush, ?_⟩
    simp only [State.stream, h.buf.toList_eq, hp.buf.toList_eq]
    refine ⟨?_, hp.stream, ?_, hp.all_of_hasRoom h.buf⟩
    · rw [hp.all, decide_eq_false_iff_not]
      omega
    · rintro rfl
      exact hp.stream_of_all
  read := by
    intro len hlen
    obtain ⟨t, _, hread, _⟩ := read_spec h hlen
    exact ⟨t, hread⟩

/-- **The read queue is a faithful byte stream** of any capacity, in every run of pushes and
reads. -/
theorem tty_stream_of_runs {s : State N} {ops : List Op}
    (h : Runs Step (State.new : State N) ops s) :
    Faithful s := by
  obtain ⟨l, hinv⟩ := h.invariant (P := fun s => ∃ l, Inv s l) ⟨[], inv_new⟩
    fun _ _ _ ⟨_, hinv⟩ hs => hinv.step hs
  exact hinv.faithful

/-- A read asks for two bytes and a push brings three: the third stays in the ring buffer. -/
theorem tty_stream_example :
    ∃ s : State 4, Runs Step (State.new : State 4) [.read 2, .push [7, 8, 9]] s ∧
      s.queue.buf.toList = [9] ∧ Faithful s := by
  have hread : Step (State.new : State 4) (.read 2)
      ⟨⟨.new, [⟨0, 2, 0⟩]⟩, [⟨[none, none], none⟩], [], true⟩ :=
    ⟨fun _ h => by cases h; decide, rfl⟩
  obtain ⟨t, ht⟩ : ∃ t, Step (⟨⟨.new, [⟨0, 2, 0⟩]⟩, [⟨[none, none], none⟩], [], true⟩ : State 4)
      (.push [7, 8, 9]) t := ⟨_, ⟨fun _ h => (nomatch h), rfl⟩⟩
  have hruns := Runs.cons hread (Runs.cons ht .refl)
  refine ⟨t, hruns, ?_, tty_stream_of_runs hruns⟩
  cases ht.2
  rfl

end HydroxKernel.Tty
