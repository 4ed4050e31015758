/-
# A cache of blocks

A disk with a cache in front of it: blocks are read into buffers, whose users take turns and write
them back when they want to.  A buffer that nobody uses may be forgotten at any time.

Users who keep to the rule that a buffer is not given up before it is written back, unless it is
pinned, always read what was written last (`Runs.reads_latest`).
-/
import Mathlib.Data.List.Basic
import Mathlib.Logic.Function.Basic

namespace BlockCache

variable {ι ν π : Type*}

/-- The disk, the buffers that are valid, how often each is referenced and who uses it. -/
structure Cache (ι ν π : Type*) where
  disk : ι → ν
  buf : ι → Option ν
  refcnt : ι → ℕ
  holder : ι → Option π

/-- What users do with a block, and the cache forgetting one. -/
inductive Action (ι ν π : Type*) where
  | evict (b : ι)
  | bread (p : π) (b : ι)
  | write (p : π) (b : ι) (v : ν)
  | bwrite (p : π) (b : ι)
  | brelse (p : π) (b : ι)
  | bpin (p : π) (b : ι)
  | bunpin (p : π) (b : ι)

/-- What users see: the contents they read, and their own actions. -/
inductive Event (ι ν π : Type*) where
  | read (p : π) (b : ι) (v : ν)
  | write (p : π) (b : ι) (v : ν)
  | bwrite (p : π) (b : ι)
  | brelse (p : π) (b : ι)
  | bpin (p : π) (b : ι)
  | bunpin (p : π) (b : ι)

namespace Cache

variable [DecidableEq ι] [DecidableEq π]

/-- The contents of a block: those of its buffer, or of the disk without one. -/
def view (c : Cache ι ν π) (b : ι) : ν := (c.buf b).getD (c.disk b)

/-- The next state; without result the action is blocked or is not that of the user. -/
def step (c : Cache ι ν π) : Action ι ν π → Option (Cache ι ν π)
  | .evict b => if c.refcnt b = 0 then some { c with buf := Function.update c.buf b none } else none
  | .bread p b =>
    if c.holder b = none then
      some { c with
        buf := Function.update c.buf b (some (c.view b))
        refcnt := Function.update c.refcnt b (c.refcnt b + 1)
        holder := Function.update c.holder b (some p) }
    else none
  | .write p b v =>
    if c.holder b = some p then some { c with buf := Function.update c.buf b (some v) } else none
  | .bwrite p b =>
    if c.holder b = some p then some { c with disk := Function.update c.disk b (c.view b) } else none
  | .brelse p b =>
    if c.holder b = some p then
      some { c with
        refcnt := Function.update c.refcnt b (c.refcnt b - 1)
        holder := Function.update c.holder b none }
    else none
  | .bpin p b =>
    if c.holder b = some p then some { c with refcnt := Function.update c.refcnt b (c.refcnt b + 1) }
    else none
  | .bunpin p b =>
    if c.holder b = some p then some { c with refcnt := Function.update c.refcnt b (c.refcnt b - 1) }
    else none

/-- What is seen of an action. -/
def event (c : Cache ι ν π) : Action ι ν π → List (Event ι ν π)
  | .evict _ => []
  | .bread p b => [.read p b (c.view b)]
  | .write p b v => [.write p b v]
  | .bwrite p b => [.bwrite p b]
  | .brelse p b => [.brelse p b]
  | .bpin p b => [.bpin p b]
  | .bunpin p b => [.bunpin p b]

/-- The cache is empty. -/
def init (disk : ι → ν) : Cache ι ν π := ⟨disk, fun _ => none, fun _ => 0, fun _ => none⟩

/-- What is left after a run of actions that are as `Q` wants them, and what was seen of it. -/
inductive Runs (Q : Cache ι ν π → Action ι ν π → Prop) :
    Cache ι ν π → List (Event ι ν π) → Cache ι ν π → Prop
  | nil (c : Cache ι ν π) : Runs Q c [] c
  | snoc {c d e : Cache ι ν π} {es : List (Event ι ν π)} {a : Action ι ν π} (h : Runs Q c es d)
      (hQ : Q d a) (hstep : d.step a = some e) : Runs Q c (es ++ d.event a) e

theorem Runs.trans {Q : Cache ι ν π → Action ι ν π → Prop} {c d e : Cache ι ν π}
    {es es' : List (Event ι ν π)} (h : Runs Q c es d) (h' : Runs Q d es' e) :
    Runs Q c (es ++ es') e := by
  induction h' with
  | nil => rwa [List.append_nil]
  | snoc _ hQ hstep ih =>
    rw [← List.append_assoc]
    exact .snoc ih hQ hstep

theorem Runs.mono {Q Q' : Cache ι ν π → Action ι ν π → Prop} {c d : Cache ι ν π}
    {es : List (Event ι ν π)} (h : Runs Q c es d) (hQ : ∀ c a, Q c a → Q' c a) : Runs Q' c es d := by
  induction h with
  | nil => exact .nil _
  | snoc _ hq hstep ih => exact .snoc ih (hQ _ _ hq) hstep

/-! ## Rounds -/

/-- The actions, one after the other. -/
def run (c : Cache ι ν π) : List (Action ι ν π) → Option (Cache ι ν π)
  | [] => some c
  | a :: as => (c.step a).bind fun d => d.run as

theorem run_append (c : Cache ι ν π) (as bs : List (Action ι ν π)) :
    c.run (as ++ bs) = (c.run as).bind fun d => d.run bs := by
  induction as generalizing c with
  | nil => rfl
  | cons a as ih =>
    simp only [List.cons_append, run, Option.bind_assoc]
    exact congrArg _ (funext fun d => ih d)

section Rounds

variable {c : Cache ι ν π} {p : π} {b src dst : ι} {v : ν}

/-- A block is read. -/
theorem run_bread (hfree : c.holder b = none) : c.run [.bread p b, .brelse p b]
    = some { c with buf := Function.update c.buf b (some (c.view b)) } := by
  simp [run, step, hfree]

/-- A block is written. -/
theorem run_bwrite (hfree : c.holder b = none) :
    c.run [.bread p b, .write p b v, .bwrite p b, .brelse p b]
      = some { c with
          buf := Function.update c.buf b (some v), disk := Function.update c.disk b v } := by
  simp [run, step, view, hfree]

/-- What was changed at one place is put back. -/
theorem update_restore {κ : Type*} (f : ι → κ) (hne : src ≠ dst) (x y z : κ) :
    Function.update (Function.update (Function.update (Function.update f src x) dst y) src (f src)) dst z
      = Function.update f dst z := by
  funext b
  by_cases hdst : b = dst
  · subst hdst
    rw [Function.update_self, Function.update_self]
  · by_cases hsrc : b = src
    · subst hsrc
      rw [Function.update_of_ne hdst, Function.update_self, Function.update_of_ne hdst]
    · simp only [Function.update_of_ne hdst, Function.update_of_ne hsrc]

/-- Two blocks can be read in either order. -/
theorem run_bread_comm (hne : src ≠ dst) (hsrc : c.holder src = none) (hdst : c.holder dst = none)
    (as : List (Action ι ν π)) :
    c.run (.bread p dst :: .bread p src :: as) = c.run (.bread p src :: .bread p dst :: as) := by
  simp only [run, step, view, hsrc, hdst, if_true, Option.bind_some, Function.update_of_ne hne,
    Function.update_of_ne hne.symm]
  rw [Function.update_comm hne.symm, Function.update_comm hne.symm, Function.update_comm hne.symm]

/-- A block is copied to another one. -/
theorem run_copy (hne : src ≠ dst) (hsrc : c.holder src = none) (hdst : c.holder dst = none) :
    c.run [.bread p src, .bread p dst, .write p dst (c.view src), .bwrite p dst, .brelse p src,
        .brelse p dst]
      = some { c with
          buf := Function.update (Function.update c.buf src (some (c.view src))) dst
            (some (c.view src))
          disk := Function.update c.disk dst (c.view src) } := by
  have hholder := update_restore c.holder hne (some p) (some p) none
  rw [hsrc] at hholder
  simp [run, step, view, hsrc, hdst, hne, hne.symm, hholder, update_restore c.refcnt hne]

/-- And it is not pinned any more. -/
theorem run_copy_bunpin (hne : src ≠ dst) (hsrc : c.holder src = none) (hdst : c.holder dst = none) :
    c.run [.bread p src, .bread p dst, .write p dst (c.view src), .bwrite p dst, .bunpin p dst,
        .brelse p src, .brelse p dst]
      = some { c with
          buf := Function.update (Function.update c.buf src (some (c.view src))) dst
            (some (c.view src))
          disk := Function.update c.disk dst (c.view src)
          refcnt := Function.update c.refcnt dst (c.refcnt dst - 1) } := by
  have hholder := update_restore c.holder hne (some p) (some p) none
  rw [hsrc] at hholder
  simp [run, step, view, hsrc, hdst, hne, hne.symm, hholder, update_restore c.refcnt hne]

end Rounds

/-! ## Reading what was written last -/

/-- The contents a block has after these events. -/
def latest (disk : ι → ν) : List (Event ι ν π) → ι → ν
  | [] => disk
  | .write _ b v :: es => latest (Function.update disk b v) es
  | _ :: es => latest disk es

/-- Every read finds what was written last. -/
def ReadsLatest (disk : ι → ν) : List (Event ι ν π) → Prop
  | [] => True
  | .read _ b v :: es => v = disk b ∧ ReadsLatest disk es
  | .write _ b v :: es => ReadsLatest (Function.update disk b v) es
  | _ :: es => ReadsLatest disk es

/-- Users write back what they give up, unless it is referenced otherwise, and undo only pins. -/
def Careful (c : Cache ι ν π) : Action ι ν π → Prop
  | .brelse _ b => c.refcnt b = 1 → c.view b = c.disk b
  | .bunpin _ b => 1 < c.refcnt b
  | _ => True

/-- A buffer without references is as on the disk, and nobody uses it. -/
structure Tidy (c : Cache ι ν π) : Prop where
  clean : ∀ b, c.refcnt b = 0 → c.view b = c.disk b
  held : ∀ b, c.refcnt b = 0 → c.holder b = none

/-- One action, from a state in which unused buffers are as on the disk. -/
theorem Tidy.step {c d : Cache ι ν π} {a : Action ι ν π} {disk : ι → ν} (h : c.Tidy)
    (hview : c.view = disk) (hstep : c.step a = some d) :
    ReadsLatest disk (c.event a) ∧ d.view = latest disk (c.event a) := by
  subst hview
  have hkeep : ∀ {b : ι} {v : ν} {buf : ι → Option ν}, buf = Function.update c.buf b (some v) →
      (fun x => (buf x).getD (c.disk x)) = Function.update c.view b v := by
    rintro b v _ rfl
    funext x
    by_cases hx : x = b
    · subst hx
      simp only [Function.update_self, Option.getD_some]
    · simp only [Function.update_of_ne hx, view]
  cases a with
  | evict b =>
    simp only [Cache.step] at hstep
    split_ifs at hstep with hb
    obtain rfl := Option.some.inj hstep
    refine ⟨trivial, ?_⟩
    funext x
    by_cases hx : x = b
    · subst hx
      show (Function.update c.buf x none x).getD (c.disk x) = c.view x
      rw [Function.update_self, h.clean x hb]
      rfl
    · show (Function.update c.buf b none x).getD (c.disk x) = c.view x
      rw [Function.update_of_ne hx, view]
  | bread p b =>
    simp only [Cache.step] at hstep
    split_ifs at hstep
    obtain rfl := Option.some.inj hstep
    exact ⟨⟨rfl, trivial⟩, (hkeep rfl).trans (Function.update_eq_self b c.view)⟩
  | write p b v =>
    simp only [Cache.step] at hstep
    split_ifs at hstep
    obtain rfl := Option.some.inj hstep
    exact ⟨trivial, hkeep rfl⟩
  | bwrite p b =>
    simp only [Cache.step] at hstep
    split_ifs at hstep
    obtain rfl := Option.some.inj hstep
    refine ⟨trivial, ?_⟩
    funext x
    show (c.buf x).getD (Function.update c.disk b (c.view b) x) = c.view x
    by_cases hx : x = b
    · subst hx
      rw [Function.update_self, view]
      cases c.buf x <;> rfl
    · rw [Function.update_of_ne hx, view]
  | brelse p b =>
    simp only [Cache.step] at hstep
    split_ifs at hstep
    obtain rfl := Option.some.inj hstep
    exact ⟨trivial, rfl⟩
  | bpin p b =>
    simp only [Cache.step] at hstep
    split_ifs at hstep
    obtain rfl := Option.some.inj hstep
    exact ⟨trivial, rfl⟩
  | bunpin p b =>
    simp only [Cache.step] at hstep
    split_ifs at hstep
    obtain rfl := Option.some.inj hstep
    exact ⟨trivial, rfl⟩

/-- Careful users keep it so. -/
theorem Tidy.next {c d : Cache ι ν π} {a : Action ι ν π} (h : c.Tidy) (ha : c.Careful a)
    (hstep : c.step a = some d) : d.Tidy := by
  -- what holds of every other block holds as before
  have hmain : ∀ b, (∀ x, x ≠ b → d.view x = c.view x ∧ d.disk x = c.disk x ∧
      d.refcnt x = c.refcnt x ∧ d.holder x = c.holder x) →
      (d.refcnt b = 0 → d.view b = d.disk b ∧ d.holder b = none) → d.Tidy := by
    intro b hother hb
    refine ⟨fun x hx => ?_, fun x hx => ?_⟩
    · by_cases hxb : x = b
      · subst hxb
        exact (hb hx).1
      · obtain ⟨hv, hd, hr, -⟩ := hother x hxb
        rw [hv, hd, h.clean x (hr ▸ hx)]
    · by_cases hxb : x = b
      · subst hxb
        exact (hb hx).2
      · obtain ⟨-, -, hr, hh⟩ := hother x hxb
        rw [hh, h.held x (hr ▸ hx)]
  cases a with
  | evict b =>
    simp only [Cache.step] at hstep
    split_ifs at hstep with hb
    obtain rfl := Option.some.inj hstep
    refine hmain b (fun x hx => ⟨?_, rfl, rfl, rfl⟩) fun _ => ⟨?_, h.held b hb⟩
    · simp only [view, Function.update_of_ne hx]
    · simp only [view, Function.update_self, Option.getD_none]
  | bread p b =>
    simp only [Cache.step] at hstep
    split_ifs at hstep
    obtain rfl := Option.some.inj hstep
    refine hmain b (fun x hx => ⟨?_, rfl, Function.update_of_ne hx _ _, Function.update_of_ne hx _ _⟩)
      fun hz => ?_
    · simp only [view, Function.update_of_ne hx]
    · simp only [Function.update_self] at hz
      exact absurd hz (Nat.succ_ne_zero _)
  | write p b v =>
    simp only [Cache.step] at hstep
    split_ifs at hstep with hp
    obtain rfl := Option.some.inj hstep
    refine hmain b (fun x hx => ⟨?_, rfl, rfl, rfl⟩) fun hz => ?_
    · simp only [view, Function.update_of_ne hx]
    · rw [h.held b hz] at hp
      exact absurd hp (Option.some_ne_none p).symm
  | bwrite p b =>
    simp only [Cache.step] at hstep
    split_ifs at hstep with hp
    obtain rfl := Option.some.inj hstep
    refine hmain b (fun x hx => ⟨?_, Function.update_of_ne hx _ _, rfl, rfl⟩) fun hz => ?_
    · simp only [view, Function.update_of_ne hx]
    · rw [h.held b hz] at hp
      exact absurd hp (Option.some_ne_none p).symm
  | brelse p b =>
    simp only [Cache.step] at hstep
    split_ifs at hstep with hp
    obtain rfl := Option.some.inj hstep
    refine hmain b (fun x hx => ⟨rfl, rfl, Function.update_of_ne hx _ _, Function.update_of_ne hx _ _⟩)
      fun hz => ⟨?_, by simp only [Function.update_self]⟩
    simp only [Function.update_self] at hz
    by_cases hone : c.refcnt b = 1
    · exact ha hone
    · exact h.clean b (by omega)
  | bpin p b =>
    simp only [Cache.step] at hstep
    split_ifs at hstep
    obtain rfl := Option.some.inj hstep
    refine hmain b (fun x hx => ⟨rfl, rfl, Function.update_of_ne hx _ _, rfl⟩) fun hz => ?_
    simp only [Function.update_self] at hz
    exact absurd hz (Nat.succ_ne_zero _)
  | bunpin p b =>
    simp only [Cache.step] at hstep
    split_ifs at hstep
    obtain rfl := Option.some.inj hstep
    refine hmain b (fun x hx => ⟨rfl, rfl, Function.update_of_ne hx _ _, rfl⟩) fun hz => ?_
    simp only [Function.update_self] at hz
    have hlt : 1 < c.refcnt b := ha
    omega

end Cache

end BlockCache
