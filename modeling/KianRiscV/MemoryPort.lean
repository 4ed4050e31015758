/-
# Circuits between a requester and a memory

A requester raises a request and holds it until it is answered; a RAM accepts a request,
answers it after an arbitrary number of cycles and keeps its data output until it accepts
the next one.  A `FrontEnd` is a synchronous circuit between the two.

* `Faithful` : in one cycle, a read is answered with the word of the RAM, and the RAM
  performs a write exactly when the requester's write is answered;
* `Transparent` : over a run, the requester sees a flat memory and the RAM gets every write
  once, in order.

`transparent_of_faithful` passes from the first to the second.
-/
import KianRiscV.SyncRun
import Mathlib.Data.List.Range

namespace MemoryPort

variable {α β μ ω : Type*}

/-! ## Requests and flat memories -/

/-- What a port carries in one cycle. -/
@[ext] structure Request (α μ ω : Type*) where
  valid : Bool
  addr : α
  mask : μ
  data : ω
  deriving DecidableEq

/-- How requests act on a memory: the word an address falls into and the merge of new data
into an old word, under a mask.  One mask is that of reads. -/
structure Format (α β μ ω : Type*) where
  word : α → β
  read : μ
  merge : μ → ω → ω → ω
  merge_read : ∀ old new, merge read old new = old

namespace Format

variable [DecidableEq β] [DecidableEq μ] (f : Format α β μ ω)

/-- A flat memory after one request. -/
def write (m : β → ω) (q : Request α μ ω) : β → ω :=
  Function.update m (f.word q.addr) (f.merge q.mask (m (f.word q.addr)) q.data)

/-- A flat memory after a sequence of requests. -/
def after (m : β → ω) (qs : List (Request α μ ω)) : β → ω := qs.foldl f.write m

/-- What a flat memory answers to the reads of a sequence of requests. -/
def reads (m : β → ω) : List (Request α μ ω) → List ω
  | [] => []
  | q :: qs => (if q.mask = f.read then [m (f.word q.addr)] else []) ++ reads (f.write m q) qs

variable {f} {m : β → ω}

omit [DecidableEq μ] in
theorem write_of_read {q : Request α μ ω} (h : q.mask = f.read) : f.write m q = m := by
  rw [write, h, f.merge_read, Function.update_eq_self]

omit [DecidableEq μ] in
theorem after_append (qs : List (Request α μ ω)) (q : Request α μ ω) :
    f.after m (qs ++ [q]) = f.write (f.after m qs) q := by
  rw [after, List.foldl_append]
  rfl

theorem reads_append (qs : List (Request α μ ω)) (q : Request α μ ω) :
    f.reads m (qs ++ [q]) =
      f.reads m qs ++ if q.mask = f.read then [f.after m qs (f.word q.addr)] else [] := by
  induction qs generalizing m with
  | nil => simp [reads, after]
  | cons p qs ih => simp only [List.cons_append, reads, ih, List.append_assoc]; rfl

end Format

/-! ## A RAM of arbitrary latency -/

/-- A RAM: its words, the request it works on, and its data output. -/
structure Ram (α β μ ω : Type*) where
  content : β → ω
  held : Option (Request α μ ω)
  dout : ω

/-- What the environment decides in a cycle: whether the RAM is ready with the request it
holds, and what its data output shows while there is no read data. -/
structure Answer (ω : Type*) where
  ready : Bool
  noise : ω

namespace Ram

variable (f : Format α β μ ω) (r : Ram α β μ ω) (a : Answer ω) (q : Request α μ ω)

/-- The ready output.  A request accepted in one cycle is answered in a later one. -/
def ready : Bool := a.ready && r.held.isSome

/-- The data output: the word of a read that is answered, kept until the next request is
accepted. -/
def rdata [DecidableEq μ] : ω :=
  match r.held with
  | none => r.dout
  | some p => if a.ready = true ∧ p.mask = f.read then r.content (f.word p.addr) else a.noise

/-- The request performed in this cycle. -/
def served : Option (Request α μ ω) := if a.ready then r.held else none

/-- One clock edge, under the request `q`. -/
def next [DecidableEq β] [DecidableEq μ] : Ram α β μ ω where
  content := ((r.served a).map (f.write r.content)).getD r.content
  held := if q.valid && !r.ready a then some (r.held.getD q) else none
  dout := r.rdata f a

variable {f r a q}

theorem ready_eq_false_of_none (h : r.held = none) : r.ready a = false := by
  simp [ready, h]

theorem ready_eq_of_some {p : Request α μ ω} (h : r.held = some p) : r.ready a = a.ready := by
  simp [ready, h]

theorem served_of_not_ready (h : r.ready a = false) : r.served a = none := by
  rcases hh : r.held with _ | p
  · simp [served, hh]
  · rw [ready_eq_of_some hh] at h
    simp [served, h]

theorem served_of_ready {p : Request α μ ω} (hp : r.held = some p) (h : r.ready a = true) :
    r.served a = some p := by
  rw [ready_eq_of_some hp] at h
  simp [served, h, hp]

variable [DecidableEq μ]

theorem rdata_of_ready {p : Request α μ ω} (hp : r.held = some p) (h : r.ready a = true)
    (hm : p.mask = f.read) : r.rdata f a = r.content (f.word p.addr) := by
  rw [ready_eq_of_some hp] at h
  simp [rdata, hp, h, hm]

theorem rdata_of_none (h : r.held = none) : r.rdata f a = r.dout := by
  simp [rdata, h]

variable [DecidableEq β]

@[simp] theorem next_dout : (r.next f a q).dout = r.rdata f a := rfl

theorem next_content_of_not_ready (h : r.ready a = false) :
    (r.next f a q).content = r.content := by
  simp [next, served_of_not_ready h]

theorem next_content_of_ready {p : Request α μ ω} (hp : r.held = some p)
    (h : r.ready a = true) : (r.next f a q).content = f.write r.content p := by
  simp [next, served_of_ready hp h]

/-- A read leaves the words as they are. -/
theorem next_content_of_read {p : Request α μ ω} (hp : r.held = some p)
    (hm : p.mask = f.read) : (r.next f a q).content = r.content := by
  by_cases h : r.ready a = true
  · rw [next_content_of_ready hp h, Format.write_of_read hm]
  · exact next_content_of_not_ready (by simpa using h)

theorem next_held_of_ready (h : r.ready a = true) : (r.next f a q).held = none := by
  simp [next, h]

theorem next_held_of_not_valid (h : q.valid = false) : (r.next f a q).held = none := by
  simp [next, h]

theorem next_held_isSome (hv : q.valid = true) (h : r.ready a = false) :
    (r.next f a q).held.isSome = true := by
  simp [next, hv, h]

/-- A request that is kept up is the request held. -/
theorem next_held_of_same (hold : r.held = none ∨ r.held = some q) :
    (r.next f a q).held = none ∨ (r.next f a q).held = some q := by
  rcases hold with h | h <;> cases hv : q.valid <;> cases hr : r.ready a <;> simp [next, h, hv, hr]

end Ram

/-! ## Front ends -/

/-- A synchronous circuit between a requester and a RAM.  Its outputs may depend on the
ready signal of the RAM in the same cycle. -/
structure FrontEnd (α μ ω : Type*) where
  State : Type*
  ramRequest : State → Request α μ ω → (ramReady : Bool) → Request α μ ω
  ready : State → Request α μ ω → (ramReady : Bool) → Bool
  dout : State → Request α μ ω → (ramReady : Bool) → (rdata : ω) → ω
  next : State → Request α μ ω → (ramReady : Bool) → (rdata : ω) → State

namespace FrontEnd

variable [DecidableEq β] [DecidableEq μ] (F : FrontEnd α μ ω) (f : Format α β μ ω)

/-- One clock edge of the circuit and its RAM. -/
def step (s : F.State × Ram α β μ ω) (x : Request α μ ω × Answer ω) : F.State × Ram α β μ ω :=
  (F.next s.1 x.1 (s.2.ready x.2) (s.2.rdata f x.2),
    s.2.next f x.2 (F.ramRequest s.1 x.1 (s.2.ready x.2)))

variable (s : F.State × Ram α β μ ω) (q : ℕ → Request α μ ω) (a : ℕ → Answer ω) (n : ℕ)

/-- The circuit and its RAM after `n` edges. -/
def trace : F.State × Ram α β μ ω := Sync.run (F.step f) s (fun i => (q i, a i)) n

/-- The ready signal to the requester in cycle `n`. -/
def readyAt : Bool := F.ready (F.trace f s q a n).1 (q n) ((F.trace f s q a n).2.ready (a n))

/-- The data to the requester in cycle `n`. -/
def doutAt : ω :=
  F.dout (F.trace f s q a n).1 (q n) ((F.trace f s q a n).2.ready (a n))
    ((F.trace f s q a n).2.rdata f (a n))

/-- The requester holds every request until it is answered. -/
def Held : Prop := ∀ n, (q n).valid = true → F.readyAt f s q a n = false → q (n + 1) = q n

/-- The request answered in cycle `n`. -/
def answeredAt : Option (Request α μ ω) :=
  if (q n).valid && F.readyAt f s q a n then some (q n) else none

/-- The data of a read answered in cycle `n`. -/
def readAt : Option ω :=
  if (q n).valid && F.readyAt f s q a n && decide ((q n).mask = f.read) then
    some (F.doutAt f s q a n)
  else none

/-- The write the RAM performs in cycle `n`. -/
def storeAt : Option (Request α μ ω) :=
  ((F.trace f s q a n).2.served (a n)).filter fun p => decide (p.mask ≠ f.read)

/-- The requests answered in the first `n` cycles. -/
def answered : List (Request α μ ω) := (List.range n).filterMap (F.answeredAt f s q a)

/-- The data returned by the reads answered in the first `n` cycles. -/
def returned : List ω := (List.range n).filterMap (F.readAt f s q a)

/-- The writes performed by the RAM in the first `n` cycles. -/
def stored : List (Request α μ ω) := (List.range n).filterMap (F.storeAt f s q a)

/-- The request of cycle `n` is answered, then or later. -/
def Answers : Prop := ∃ m, n ≤ m ∧ q m = q n ∧ F.readyAt f s q a m = true

/-- One cycle: reads are answered with the word of the RAM, a write is performed exactly
when it is answered, and nothing is answered that was not asked. -/
structure Faithful (s : F.State) (r : Ram α β μ ω) (q : Request α μ ω) (a : Answer ω) :
    Prop where
  valid : F.ready s q (r.ready a) = true → q.valid = true
  read : F.ready s q (r.ready a) = true → q.mask = f.read →
    F.dout s q (r.ready a) (r.rdata f a) = r.content (f.word q.addr)
  store : (r.served a).filter (fun p => decide (p.mask ≠ f.read)) =
    if F.ready s q (r.ready a) && decide (q.mask ≠ f.read) then some q else none

/-- A run: the requester sees a flat memory, which is that of the RAM, the RAM performs the
writes answered and no others, and every request is answered if the RAM keeps answering. -/
structure Transparent : Prop where
  valid : ∀ n, F.readyAt f s q a n = true → (q n).valid = true
  read : ∀ n, F.readyAt f s q a n = true → (q n).mask = f.read →
    F.doutAt f s q a n = (F.trace f s q a n).2.content (f.word (q n).addr)
  content : ∀ n, (F.trace f s q a n).2.content = f.after s.2.content (F.answered f s q a n)
  returned : ∀ n, F.returned f s q a n = f.reads s.2.content (F.answered f s q a n)
  stored : ∀ n, F.stored f s q a n =
    (F.answered f s q a n).filter fun p => decide (p.mask ≠ f.read)
  answers : (∀ n, ∃ m, n ≤ m ∧ (a m).ready = true) → ∀ n, (q n).valid = true → F.Answers f s q a n

variable {F f s q a}

theorem trace_succ (n : ℕ) :
    F.trace f s q a (n + 1) = F.step f (F.trace f s q a n) (q n, a n) := rfl

/-- An invariant of the circuit, its RAM and the request presented to them: it holds at the
start, and every edge keeps it for each request that may follow. -/
theorem trace_invariant {P : F.State → Ram α β μ ω → Request α μ ω → Prop}
    (hq : F.Held f s q a) (h0 : ∀ p, P s.1 s.2 p)
    (hstep : ∀ t r p b p', P t r p →
      (p.valid = true → F.ready t p (r.ready b) = false → p' = p) →
      P (F.step f (t, r) (p, b)).1 (F.step f (t, r) (p, b)).2 p') (n : ℕ) :
    P (F.trace f s q a n).1 (F.trace f s q a n).2 (q n) := by
  induction n with
  | zero => exact h0 (q 0)
  | succ n ih => exact hstep _ _ _ (a n) _ ih (hq n)

/-! ### Faithful cycles -/

section

variable {t : F.State} {r : Ram α β μ ω} {p : Request α μ ω} {b : Answer ω}

omit [DecidableEq β] in
/-- A cycle without an answer in which the RAM does not perform a write. -/
theorem Faithful.quiet (hr : F.ready t p (r.ready b) = false)
    (hs : ∀ o, r.served b = some o → o.mask = f.read) : F.Faithful f t r p b where
  valid h := by simp [hr] at h
  read h := by simp [hr] at h
  store := by
    rw [hr]
    rcases ho : r.served b with _ | o
    · rfl
    · simp [Option.filter, hs o ho]

omit [DecidableEq β] in
/-- A cycle in which the answer of the RAM to the request is passed on. -/
theorem Faithful.pass (hv : p.valid = true) (hheld : r.held = none ∨ r.held = some p)
    (hr : F.ready t p (r.ready b) = r.ready b)
    (hd : p.mask = f.read → F.dout t p (r.ready b) (r.rdata f b) = r.rdata f b) :
    F.Faithful f t r p b where
  valid _ := hv
  read h hm := by
    rw [hr] at h
    rcases hheld with hn | hp
    · rw [Ram.ready_eq_false_of_none hn] at h
      exact absurd h (by decide)
    · rw [hd hm, Ram.rdata_of_ready hp h hm]
  store := by
    rw [hr]
    cases hrb : r.ready b with
    | false => rw [Ram.served_of_not_ready hrb]; rfl
    | true =>
      rcases hheld with hn | hp
      · rw [Ram.ready_eq_false_of_none hn] at hrb
        exact absurd hrb (by decide)
      · rw [Ram.served_of_ready hp hrb]
        by_cases hm : p.mask = f.read <;> simp [Option.filter, hm]

omit [DecidableEq β] in
/-- A cycle in which a read is answered without the RAM. -/
theorem Faithful.answer (hv : p.valid = true) (hm : p.mask = f.read)
    (hs : r.ready b = false)
    (hd : F.dout t p (r.ready b) (r.rdata f b) = r.content (f.word p.addr)) :
    F.Faithful f t r p b where
  valid _ := hv
  read _ _ := hd
  store := by simp [Ram.served_of_not_ready hs, hm]

/-- Over a faithful cycle the words of the RAM change by the request answered. -/
theorem Faithful.next_content (h : F.Faithful f t r p b) (p' : Request α μ ω) :
    (r.next f b p').content =
      if F.ready t p (r.ready b) then f.write r.content p else r.content := by
  have hfilter : ∀ z : Option (Request α μ ω), (z.map (f.write r.content)).getD r.content =
      ((z.filter fun o => decide (o.mask ≠ f.read)).map (f.write r.content)).getD r.content := by
    rintro (_ | o)
    · rfl
    · by_cases hm : o.mask = f.read
      · simp [Option.filter, hm, Format.write_of_read hm]
      · simp [Option.filter, hm]
  simp only [Ram.next]
  rw [hfilter, h.store]
  cases F.ready t p (r.ready b) with
  | false => rfl
  | true =>
    by_cases hm : p.mask = f.read
    · simp [hm, Format.write_of_read hm]
    · simp [hm]

end

/-! ### From cycles to runs -/

theorem filterMap_range_succ {τ : Type*} (x : ℕ → Option τ) (n : ℕ) :
    (List.range (n + 1)).filterMap x = (List.range n).filterMap x ++ (x n).toList := by
  rw [List.range_succ, List.filterMap_append]
  cases hx : x n <;> simp [hx]

theorem answered_succ (n : ℕ) :
    F.answered f s q a (n + 1) = F.answered f s q a n ++ (F.answeredAt f s q a n).toList :=
  filterMap_range_succ _ n

variable (hF : ∀ n, F.Faithful f (F.trace f s q a n).1 (F.trace f s q a n).2 (q n) (a n))

include hF

theorem answeredAt_eq (n : ℕ) :
    F.answeredAt f s q a n = if F.readyAt f s q a n then some (q n) else none := by
  cases hr : F.readyAt f s q a n with
  | true => simp [answeredAt, hr, (hF n).valid hr]
  | false => simp [answeredAt, hr]

theorem storeAt_eq (n : ℕ) :
    F.storeAt f s q a n =
      (F.answeredAt f s q a n).filter fun p => decide (p.mask ≠ f.read) := by
  rw [answeredAt_eq hF n, storeAt, (hF n).store]
  cases hr : F.readyAt f s q a n with
  | true =>
    rw [readyAt] at hr
    by_cases hm : (q n).mask = f.read <;> simp [hr, hm, Option.filter]
  | false =>
    rw [readyAt] at hr
    simp [hr]

/-- The words of the RAM change by the request answered. -/
theorem content_succ (n : ℕ) :
    (F.trace f s q a (n + 1)).2.content =
      ((F.answeredAt f s q a n).map (f.write (F.trace f s q a n).2.content)).getD
        (F.trace f s q a n).2.content := by
  rw [answeredAt_eq hF n]
  refine ((hF n).next_content _).trans ?_
  rw [← readyAt]
  cases F.readyAt f s q a n <;> rfl

theorem content_eq (n : ℕ) :
    (F.trace f s q a n).2.content = f.after s.2.content (F.answered f s q a n) := by
  induction n with
  | zero => rfl
  | succ n ih =>
    rw [content_succ hF n, answered_succ, ih]
    cases F.answeredAt f s q a n with
    | none => simp
    | some p => simp [Format.after_append]

theorem returned_eq (n : ℕ) :
    F.returned f s q a n = f.reads s.2.content (F.answered f s q a n) := by
  induction n with
  | zero => rfl
  | succ n ih =>
    rw [returned, filterMap_range_succ, ← returned, ih, answered_succ, answeredAt_eq hF n]
    cases hr : F.readyAt f s q a n with
    | false => simp [readAt, hr]
    | true =>
      have hv := (hF n).valid hr
      by_cases hm : (q n).mask = f.read
      · have hd : F.doutAt f s q a n = _ := (hF n).read hr hm
        rw [content_eq hF n] at hd
        simp [readAt, hr, hv, hm, hd, Format.reads_append]
      · simp [readAt, hr, hm, Format.reads_append]

theorem stored_eq (n : ℕ) :
    F.stored f s q a n = (F.answered f s q a n).filter fun p => decide (p.mask ≠ f.read) := by
  induction n with
  | zero => rfl
  | succ n ih =>
    rw [stored, filterMap_range_succ, ← stored, ih, answered_succ, List.filter_append,
      storeAt_eq hF n]
    congr 1
    cases F.answeredAt f s q a n with
    | none => rfl
    | some p => by_cases hm : p.mask = f.read <;> simp [Option.filter, hm]

/-- Faithful cycles make a transparent run, given that requests are answered. -/
theorem transparent_of_faithful
    (hlive : (∀ n, ∃ m, n ≤ m ∧ (a m).ready = true) → ∀ n, (q n).valid = true →
      F.Answers f s q a n) : F.Transparent f s q a where
  valid n := (hF n).valid
  read n := (hF n).read
  content := content_eq hF
  returned := returned_eq hF
  stored := stored_eq hF
  answers := hlive

omit hF

/-- Two transparent circuits that have answered the same requests have returned the same
data and left the same words in their RAMs. -/
theorem Transparent.agree {G : FrontEnd α μ ω} {s' : G.State × Ram α β μ ω}
    {q' : ℕ → Request α μ ω} {a' : ℕ → Answer ω} (hF : F.Transparent f s q a)
    (hG : G.Transparent f s' q' a') (hc : s.2.content = s'.2.content) {n n' : ℕ}
    (h : F.answered f s q a n = G.answered f s' q' a' n') :
    F.returned f s q a n = G.returned f s' q' a' n' ∧
      (F.trace f s q a n).2.content = (G.trace f s' q' a' n').2.content := by
  constructor
  · rw [hF.returned, hG.returned, h, hc]
  · rw [hF.content, hG.content, h, hc]

/-! ### Waiting for the RAM -/

theorem answers_of_ready {n : ℕ} (h : F.readyAt f s q a n = true) : F.Answers f s q a n :=
  ⟨n, le_rfl, rfl, h⟩

/-- A cycle without answer hands the request on to the next. -/
theorem answers_of_succ (hq : F.Held f s q a) {n : ℕ} (hv : (q n).valid = true)
    (h : F.readyAt f s q a n = false)
    (hn : (q (n + 1)).valid = true → F.Answers f s q a (n + 1)) : F.Answers f s q a n := by
  have hsame : q (n + 1) = q n := hq n hv h
  obtain ⟨m, hm, hqm, hr⟩ := hn (by rw [hsame]; exact hv)
  exact ⟨m, by omega, hqm.trans hsame, hr⟩

/-- A later cycle with the same request. -/
theorem answers_of_later {n m : ℕ} (hnm : n ≤ m) (hqm : q m = q n) (hm : F.Answers f s q a m) :
    F.Answers f s q a n := by
  obtain ⟨k, hk, hqk, hr⟩ := hm
  exact ⟨k, by omega, hqk.trans hqm, hr⟩

/-- States that keep a request up and do not answer before the RAM does, are left with the
RAM ready. -/
theorem exists_ready (hq : F.Held f s q a) (hfair : ∀ n, ∃ m, n ≤ m ∧ (a m).ready = true)
    {W : F.State → Prop} (hready : ∀ t p, W t → F.ready t p false = false)
    (hreq : ∀ t p, W t → (F.ramRequest t p false).valid = true)
    (hstay : ∀ t p x, W t → W (F.next t p false x)) {n : ℕ} (hv : (q n).valid = true)
    (hn : W (F.trace f s q a n).1) :
    ∃ m, n ≤ m ∧ q m = q n ∧ W (F.trace f s q a m).1 ∧
      (F.trace f s q a m).2.ready (a m) = true := by
  -- While the RAM is not ready, the state, the request and the RAM's holding of it persist.
  have hstep : ∀ i, W (F.trace f s q a i).1 → q i = q n →
      (F.trace f s q a i).2.ready (a i) = false →
      W (F.trace f s q a (i + 1)).1 ∧ q (i + 1) = q n ∧
        (F.trace f s q a (i + 1)).2.held.isSome = true := by
    intro i hi hqi hr
    have hnot : F.readyAt f s q a i = false := by
      rw [readyAt, hr]
      exact hready _ _ hi
    refine ⟨?_, ?_, ?_⟩
    · rw [trace_succ, step, hr]
      exact hstay _ _ _ hi
    · rw [← hqi]
      exact hq i (by rw [hqi]; exact hv) hnot
    · rw [trace_succ, step]
      exact Ram.next_held_isSome (by rw [hr]; exact hreq _ _ hi) hr
  by_cases hr : (F.trace f s q a n).2.ready (a n) = true
  · exact ⟨n, le_rfl, rfl, hn, hr⟩
  · rw [Bool.not_eq_true] at hr
    have hwait : ∀ i, (W (F.trace f s q a i).1 ∧ q i = q n ∧
          (F.trace f s q a i).2.held.isSome = true) → ¬ (a i).ready = true →
        W (F.trace f s q a (i + 1)).1 ∧ q (i + 1) = q n ∧
          (F.trace f s q a (i + 1)).2.held.isSome = true := by
      rintro i ⟨hi, hqi, -⟩ ha
      exact hstep i hi hqi (by simp [Ram.ready, ha])
    obtain ⟨m, hm, ⟨hW, hqm, hheld⟩, ha⟩ :=
      Sync.exists_of_wait hwait (hstep n hn rfl hr) (hfair (n + 1))
    exact ⟨m, by omega, hqm, hW, by rw [Ram.ready, ha, hheld]; rfl⟩

end FrontEnd

end MemoryPort
