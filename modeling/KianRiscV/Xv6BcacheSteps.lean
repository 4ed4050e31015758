/-
# The steps of the users of the buffer cache

Every step keeps the invariant and is an action on the cache of blocks, or none (`Inv.step`).  Only
`bget` can fail, when it finds all buffers referenced.
-/
import KianRiscV.Xv6BcacheInv

namespace KianRiscV

namespace Xv6Bio

open Xv6 (Block BlockNo)
open Xv6Mem (Stop)
open BlockCache (Event)
open BlockCache.Cache (Runs)

variable {π : Type} [DecidableEq π] {s t : State π} {p q : π} {b b' : Fin nbuf} {blockno : BlockNo}
  {ds ds' : List (Fin nbuf)} {c d : BlockCache.Cache BlockNo Block π} {pc : Pc} {users : π → Pc} {a : Action π}

/-- A step is what users see of a run of the cache of blocks, careful if the step is. -/
def Simulates (s t : State π) (a : Action π) (c : BlockCache.Cache BlockNo Block π) : Prop :=
  ∃ d, Runs (fun c a' => s.Careful a → c.Careful a') c (s.event a) d ∧ Shows t d

/-- Other users, and what this one is not doing. -/
theorem users_iff {x : Pc} (hold : users p ≠ x) (hnew : pc ≠ x) (q : π) :
    Function.update users p pc q = x ↔ users q = x := by
  by_cases hq : q = p
  · subst hq
    rw [Function.update_self]
    exact iff_of_false hnew hold
  · rw [Function.update_of_ne hq]

/-- The user goes on from the rest of `bread`. -/
theorem users_iff_filling (hp : users p = .filling b) :
    Function.update users p (.holding b) q = .filling b ↔ q ≠ p ∧ users q = .filling b := by
  by_cases hq : q = p
  · subst hq
    simp only [Function.update_self, ne_eq, not_true_eq_false, false_and, reduceCtorEq]
  · simp only [Function.update_of_ne hq, ne_eq, hq, not_false_eq_true, true_and]

theorem toNat_succ {x : Word} (h : x.toNat + 1 < 2 ^ 32) : (x + 1#32).toNat = x.toNat + 1 := by
  rw [BitVec.toNat_add]
  exact Nat.mod_eq_of_lt h

theorem toNat_pred {x : Word} (h : 0 < x.toNat) : (x - 1#32).toNat = x.toNat - 1 :=
  BitVec.toNat_sub_of_le (show (1#32).toNat ≤ x.toNat from h)

omit [DecidableEq π] in
/-- No buffer is for another block than before. -/
theorem Inv.keep (h : Inv s ds) (horder : ∃ l, t.cache.Order l ∧ Recent ds' l)
    (hkeep : ∀ x, (t.cache.buf x).dev = (s.cache.buf x).dev ∧
      (t.cache.buf x).blockno = (s.cache.buf x).blockno)
    (hcount : ∀ x, ∃ n, Counted t.users x n ∧ (t.cache.buf x).refcnt.toNat = n + t.pins x)
    (hlock : ∀ x q, t.lock x = some q ↔ t.users q = .filling x ∨ t.users q = .holding x)
    (hused : ∀ x, (t.cache.buf x).refcnt ≠ 0 → (s.cache.buf x).dev = rootDev)
    (hvalid : ∀ q x, t.users q = .holding x → (t.cache.buf x).valid = true) : Inv t ds' := by
  refine ⟨horder, fun x y hx hy hxy => ?_, hcount, hlock, fun x hx => ?_, hvalid⟩
  · rw [(hkeep x).1] at hx
    rw [(hkeep y).1] at hy
    rw [(hkeep x).2, (hkeep y).2] at hxy
    exact h.unique x y hx hy hxy
  · rw [(hkeep x).1]
    exact hused x hx

/-! ## `bget` -/

/-- The block is in the cache. -/
theorem Inv.bget_hit (h : Inv s ds) (hs : Shows s c) (hp : s.users p = .idle)
    (hdev : (s.cache.buf b).dev = rootDev) {f : Buf → Buf}
    (hf : ∀ x, (f x).dev = x.dev ∧ (f x).blockno = x.blockno ∧ (f x).valid = x.valid ∧
      (f x).data = x.data) (href : ∀ x, (f x).refcnt = x.refcnt + 1) :
    (({ s with cache := s.cache.set b f }.goto p (.acquiring b)).Bounded →
      Inv ({ s with cache := s.cache.set b f }.goto p (.acquiring b)) ds) ∧
      Shows ({ s with cache := s.cache.set b f }.goto p (.acquiring b)) c := by
  have hkeep : ∀ x, ((s.cache.set b f).buf x).dev = (s.cache.buf x).dev ∧
      ((s.cache.set b f).buf x).blockno = (s.cache.buf x).blockno ∧
      ((s.cache.set b f).buf x).valid = (s.cache.buf x).valid ∧
      ((s.cache.set b f).buf x).data = (s.cache.buf x).data := fun x => by
    by_cases hx : x = b
    · subst hx
      rw [set_buf_self]
      exact hf _
    · rw [set_buf_of_ne _ _ hx]
      exact ⟨rfl, rfl, rfl, rfl⟩
  have hholding : ∀ x q, Function.update s.users p (.acquiring b) q = .holding x ↔
      s.users q = .holding x := fun x q => users_iff (by simp [hp]) (by simp) q
  have hfilling : ∀ x q, Function.update s.users p (.acquiring b) q = .filling x ↔
      s.users q = .filling x := fun x q => users_iff (by simp [hp]) (by simp) q
  refine ⟨fun hbound => h.keep ?_ (fun x => ⟨(hkeep x).1, (hkeep x).2.1⟩) (fun x => ?_)
    (fun x q => ?_) (fun x hx => ?_) fun q x hq => ?_, hs.same hkeep rfl rfl hholding⟩
  · obtain ⟨l, hl, hrec⟩ := h.order
    exact ⟨l, hl.set b f, hrec⟩
  · obtain ⟨n, hn, hcount⟩ := h.count x
    by_cases hx : x = b
    · subst hx
      have hn' := hn.enter (p := p) (by simp [hp, Pc.ref]) (show (Pc.acquiring x).ref = some x from rfl)
      have hlt : n + 1 + s.pins x < 2 ^ 32 := hbound x (n + 1) hn'
      refine ⟨n + 1, hn', ?_⟩
      show ((s.cache.set x f).buf x).refcnt.toNat = n + 1 + s.pins x
      rw [set_buf_self, href]
      show ((s.cache.buf x).refcnt + 1#32).toNat = n + 1 + s.pins x
      rw [toNat_succ (by omega)]
      omega
    · refine ⟨n, hn.goto (iff_of_false ?_ (by simp [hp, Pc.ref])), ?_⟩
      · exact fun heq => hx (Option.some.inj heq).symm
      · show ((s.cache.set b f).buf x).refcnt.toNat = n + s.pins x
        rw [set_buf_of_ne _ _ hx, hcount]
  · show s.lock x = some q ↔ _
    rw [h.lock]
    exact or_congr (hfilling x q).symm (hholding x q).symm
  · by_cases hxb : x = b
    · rw [hxb]
      exact hdev
    · change ((s.cache.set b f).buf x).refcnt ≠ 0 at hx
      rw [set_buf_of_ne _ _ hxb] at hx
      exact h.used x hx
  · exact (hkeep x).2.2.1.trans (h.valid q x ((hholding x q).1 hq))

omit [DecidableEq π] in
/-- Nobody uses a buffer without references. -/
theorem Inv.unused (h : Inv s ds) (hzero : (s.cache.buf b).refcnt = 0) :
    Counted s.users b 0 ∧ s.pins b = 0 ∧ ∀ q, (s.users q).ref ≠ some b := by
  obtain ⟨n, hn, href⟩ := h.count b
  rw [hzero] at href
  obtain rfl : n = 0 := by
    have h0 : (0 : Word).toNat = 0 := rfl
    omega
  refine ⟨hn, ?_, fun q hq => absurd (hn.pos hq) (Nat.lt_irrefl 0)⟩
  have h0 : (0 : Word).toNat = 0 := rfl
  omega

/-- An unused buffer is recycled: what was in it is forgotten. -/
theorem Shows.recycle (hs : Shows s c) (h : Inv s ds) (hp : s.users p = .idle)
    (hmiss : ∀ x, (s.cache.buf x).dev = rootDev → (s.cache.buf x).blockno ≠ blockno)
    (hzero : (s.cache.buf b).refcnt = 0) {f : Buf → Buf}
    (hf : ∀ x, (f x).dev = rootDev ∧ (f x).blockno = blockno ∧ (f x).valid = false)
    (hdisk : d.disk = c.disk) (hrefcnt : d.refcnt = c.refcnt) (hholder : d.holder = c.holder)
    (hother : ∀ x, (s.cache.buf b).dev = rootDev → x ≠ (s.cache.buf b).blockno → d.buf x = c.buf x)
    (hnone : (s.cache.buf b).dev = rootDev → d.buf (s.cache.buf b).blockno = none)
    (hsame : (s.cache.buf b).dev ≠ rootDev → d.buf = c.buf) :
    Shows ({ s with cache := s.cache.set b f }.goto p (.acquiring b)) d := by
  obtain ⟨-, hpins, hno⟩ := h.unused hzero
  obtain ⟨hfdev, hfblock, hfvalid⟩ := hf (s.cache.buf b)
  have hholding : ∀ x q, Function.update s.users p (.acquiring b) q = .holding x ↔
      s.users q = .holding x := fun x q => users_iff (by simp [hp]) (by simp) q
  have hbuf : ∀ x, (∀ _ : (s.cache.buf b).dev = rootDev, x ≠ (s.cache.buf b).blockno) →
      d.buf x = c.buf x := fun x hx => by
    by_cases hdev : (s.cache.buf b).dev = rootDev
    · exact hother x hdev (hx hdev)
    · rw [hsame hdev]
  have hnobody : ∀ q, s.users q ≠ .holding b := fun q hq => hno q (by rw [hq]; rfl)
  refine ⟨hdisk.trans hs.disk, fun x hx => ?_, fun x hx => ?_⟩
  · by_cases hxb : x = b
    · subst hxb
      obtain ⟨hcb, hcr, hch⟩ := hs.absent blockno hmiss
      have hblock : ((s.cache.set x f).buf x).blockno = blockno := by rw [set_buf_self, hfblock]
      refine ⟨?_, fun q => ?_, ?_⟩
      · show d.buf ((s.cache.set x f).buf x).blockno = if ((s.cache.set x f).buf x).valid then _ else none
        rw [hblock, set_buf_self, hfvalid, hbuf blockno fun hdev heq => hmiss x hdev heq.symm, hcb]
        rfl
      · show d.holder ((s.cache.set x f).buf x).blockno = some q ↔ _
        rw [hblock, hholder, hch]
        exact iff_of_false (Option.some_ne_none q).symm fun hq => hnobody q ((hholding x q).1 hq)
      · show d.refcnt ((s.cache.set x f).buf x).blockno
          = s.pins x + if (d.holder ((s.cache.set x f).buf x).blockno).isSome then 1 else 0
        rw [hblock, hrefcnt, hholder, hcr, hch, hpins]
        rfl
    · have heq : (s.cache.set b f).buf x = s.cache.buf x := set_buf_of_ne _ _ hxb
      have hx' : (s.cache.buf x).dev = rootDev := heq ▸ hx
      obtain ⟨hcb, hch, hcr⟩ := hs.cached x hx'
      refine ⟨?_, fun q => ?_, ?_⟩
      · show d.buf ((s.cache.set b f).buf x).blockno = if ((s.cache.set b f).buf x).valid then _ else none
        rw [heq, hbuf _ fun hdev hxy => hxb (h.unique x b hx' hdev hxy), hcb]
        exact congrArg (fun y => if (s.cache.buf x).valid then some y else none)
          (congrArg Buf.data heq).symm
      · show d.holder ((s.cache.set b f).buf x).blockno = some q ↔ _
        rw [heq, hholder, hch]
        exact (hholding x q).symm
      · show d.refcnt ((s.cache.set b f).buf x).blockno
          = s.pins x + if (d.holder ((s.cache.set b f).buf x).blockno).isSome then 1 else 0
        rw [heq, hrefcnt, hholder]
        exact hcr
  · have hne : ∀ y, y ≠ b → (s.cache.buf y).dev = rootDev → (s.cache.buf y).blockno ≠ x := by
      intro y hy hdev
      have heq : (s.cache.set b f).buf y = s.cache.buf y := set_buf_of_ne _ _ hy
      rw [← heq] at hdev ⊢
      exact hx y hdev
    rw [hrefcnt, hholder]
    by_cases hold : (s.cache.buf b).dev = rootDev ∧ (s.cache.buf b).blockno = x
    · obtain ⟨hdev, rfl⟩ := hold
      obtain ⟨-, hch, hcr⟩ := hs.cached b hdev
      have hfree : c.holder (s.cache.buf b).blockno = none := by
        rw [Option.eq_none_iff_forall_ne_some]
        exact fun q hq => hnobody q ((hch q).1 hq)
      refine ⟨hnone hdev, ?_, hfree⟩
      rw [hcr, hfree, hpins]
      rfl
    · rw [hbuf x fun hdev hxy => hold ⟨hdev, hxy.symm⟩]
      refine hs.absent x fun y hy => ?_
      by_cases hyb : y = b
      · subst hyb
        exact fun hyx => hold ⟨hy, hyx⟩
      · exact hne y hyb hy

/-- An unused buffer is recycled. -/
theorem Inv.bget_recycle (h : Inv s ds) (hs : Shows s c) (hp : s.users p = .idle)
    (hmiss : ∀ x, (s.cache.buf x).dev = rootDev → (s.cache.buf x).blockno ≠ blockno)
    (hzero : (s.cache.buf b).refcnt = 0) {f : Buf → Buf}
    (hf : ∀ x, (f x).dev = rootDev ∧ (f x).blockno = blockno ∧ (f x).valid = false)
    (href : ∀ x, (f x).refcnt = 1) :
    Inv ({ s with cache := s.cache.set b f }.goto p (.acquiring b)) ds ∧
      Simulates s ({ s with cache := s.cache.set b f }.goto p (.acquiring b)) (.bget p blockno) c := by
  obtain ⟨hcount, hpins, hno⟩ := h.unused hzero
  have hholding : ∀ x q, Function.update s.users p (.acquiring b) q = .holding x ↔
      s.users q = .holding x := fun x q => users_iff (by simp [hp]) (by simp) q
  have hfilling : ∀ x q, Function.update s.users p (.acquiring b) q = .filling x ↔
      s.users q = .filling x := fun x q => users_iff (by simp [hp]) (by simp) q
  refine ⟨⟨?_, fun x y hx hy hxy => ?_, fun x => ?_, fun x q => ?_, fun x hx => ?_, fun q x hq => ?_⟩, ?_⟩
  · obtain ⟨l, hl, hrec⟩ := h.order
    exact ⟨l, hl.set b f, hrec⟩
  · change ((s.cache.set b f).buf x).dev = rootDev at hx
    change ((s.cache.set b f).buf y).dev = rootDev at hy
    change ((s.cache.set b f).buf x).blockno = ((s.cache.set b f).buf y).blockno at hxy
    by_cases hxb : x = b
    · by_cases hyb : y = b
      · rw [hxb, hyb]
      · rw [hxb, set_buf_self, set_buf_of_ne _ _ hyb, (hf _).2.1] at hxy
        rw [set_buf_of_ne _ _ hyb] at hy
        exact absurd hxy.symm (hmiss y hy)
    · rw [set_buf_of_ne _ _ hxb] at hx hxy
      by_cases hyb : y = b
      · rw [hyb, set_buf_self, (hf _).2.1] at hxy
        exact absurd hxy (hmiss x hx)
      · rw [set_buf_of_ne _ _ hyb] at hy hxy
        exact h.unique x y hx hy hxy
  · by_cases hx : x = b
    · subst hx
      refine ⟨0 + 1, hcount.enter (by simp [hp, Pc.ref]) rfl, ?_⟩
      show ((s.cache.set x f).buf x).refcnt.toNat = 0 + 1 + s.pins x
      rw [set_buf_self, href, hpins]
      rfl
    · obtain ⟨n, hn, hcount'⟩ := h.count x
      refine ⟨n, hn.goto (iff_of_false ?_ (by simp [hp, Pc.ref])), ?_⟩
      · exact fun heq => hx (Option.some.inj heq).symm
      · show ((s.cache.set b f).buf x).refcnt.toNat = n + s.pins x
        rw [set_buf_of_ne _ _ hx, hcount']
  · show s.lock x = some q ↔ _
    rw [h.lock]
    exact or_congr (hfilling x q).symm (hholding x q).symm
  · show ((s.cache.set b f).buf x).dev = rootDev
    change ((s.cache.set b f).buf x).refcnt ≠ 0 at hx
    by_cases hxb : x = b
    · rw [hxb, set_buf_self]
      exact (hf _).1
    · rw [set_buf_of_ne _ _ hxb] at hx ⊢
      exact h.used x hx
  · have hq' := (hholding x q).1 hq
    have hxb : x ≠ b := by
      rintro rfl
      exact hno q (by rw [hq']; rfl)
    show ((s.cache.set b f).buf x).valid = true
    rw [set_buf_of_ne _ _ hxb]
    exact h.valid q x hq'
  · by_cases hdev : (s.cache.buf b).dev = rootDev
    · obtain ⟨-, hch, hcr⟩ := hs.cached b hdev
      have hfree : c.holder (s.cache.buf b).blockno = none := by
        rw [Option.eq_none_iff_forall_ne_some]
        exact fun q hq => hno q (by rw [(hch q).1 hq]; rfl)
      have hunused : c.refcnt (s.cache.buf b).blockno = 0 := by
        rw [hcr, hfree, hpins]
        rfl
      refine ⟨{ c with buf := Function.update c.buf (s.cache.buf b).blockno none },
        .snoc (a := .evict (s.cache.buf b).blockno) (.nil c) (fun _ => trivial) (if_pos hunused), ?_⟩
      exact hs.recycle h hp hmiss hzero hf rfl rfl rfl
        (fun x _ hx => Function.update_of_ne hx _ _) (fun _ => Function.update_self _ _ _)
        fun hne => absurd hdev hne
    · refine ⟨c, .nil c, ?_⟩
      exact hs.recycle h hp hmiss hzero hf rfl rfl rfl
        (fun _ hd => absurd hd hdev) (fun hd => absurd hd hdev) fun _ => rfl

/-- `bget` returns, or all buffers are referenced. -/
theorem Inv.bget (h : Inv s ds) (hs : Shows s c) (hp : s.users p = .idle) (blockno : BlockNo) :
    (∃ t, s.step (.bget p blockno) = .ok t ∧ (t.Bounded → Inv t ds) ∧
        Simulates s t (.bget p blockno) c) ∨
      (s.step (.bget p blockno) = .error (.panic "bget: no buffers") ∧
        ∀ x, (s.cache.buf x).refcnt ≠ 0) := by
  obtain ⟨l, hl, -⟩ := h.order
  rcases hl.bget rootDev blockno with ⟨b, hdev, -, hrun⟩ |
    ⟨hmiss, ⟨b, l₁, l₂, -, hzero, -, hrun⟩ | ⟨hall, hrun⟩⟩
  · obtain ⟨hinv, hshows⟩ := h.bget_hit hs hp hdev (f := fun x => { x with refcnt := x.refcnt + 1 })
      (fun _ => ⟨rfl, rfl, rfl, rfl⟩) fun _ => rfl
    exact .inl ⟨_, by rw [State.step, hrun]; rfl, hinv, c, .nil c, hshows⟩
  · obtain ⟨hinv, hsim⟩ := h.bget_recycle hs hp hmiss hzero (f := fun x =>
      { x with dev := rootDev, blockno := blockno, valid := false, refcnt := 1 })
      (fun _ => ⟨rfl, rfl, rfl⟩) fun _ => rfl
    exact .inl ⟨_, by rw [State.step, hrun]; rfl, fun _ => hinv, hsim⟩
  · exact .inr ⟨by rw [State.step, hrun]; rfl, hall⟩

/-! ## The lock of a buffer -/

theorem Simulates.none (hev : s.event a = []) (hshows : Shows t c) : Simulates s t a c :=
  ⟨c, by rw [hev]; exact .nil c, hshows⟩

theorem Simulates.one (a' : BlockCache.Action BlockNo Block π) (hev : s.event a = c.event a')
    (hQ : s.Careful a → c.Careful a') (hstep : c.step a' = some d) (hshows : Shows t d) :
    Simulates s t a c :=
  ⟨d, by rw [hev]; exact .snoc (.nil c) hQ hstep, hshows⟩

theorem Inv.acquiresleep (h : Inv s ds) (hs : Shows s c) (hp : s.users p = .acquiring b)
    (hfree : s.lock b = none) :
    let t := { s with lock := Function.update s.lock b (some p) }.goto p (.filling b)
    Inv t ds ∧ Shows t c := by
  have hholding : ∀ x q, Function.update s.users p (.filling b) q = .holding x ↔
      s.users q = .holding x := fun x q => users_iff (by simp [hp]) (by simp) q
  refine ⟨h.keep h.order (fun x => ⟨rfl, rfl⟩) (fun x => ?_) (fun x q => ?_) h.used fun q x hq => ?_,
    hs.same (fun x => ⟨rfl, rfl, rfl, rfl⟩) rfl rfl hholding⟩
  · obtain ⟨n, hn, href⟩ := h.count x
    exact ⟨n, hn.goto (by rw [hp]; exact Iff.rfl), href⟩
  · show Function.update s.lock b (some p) x = some q ↔
      Function.update s.users p (.filling b) q = .filling x ∨
        Function.update s.users p (.filling b) q = .holding x
    rw [hholding]
    by_cases hx : x = b
    · subst hx
      rw [Function.update_self]
      by_cases hq : q = p
      · subst hq
        simp only [Function.update_self, true_or]
      · rw [Function.update_of_ne hq]
        have hno := h.lock x q
        rw [hfree] at hno
        refine iff_of_false (fun heq => hq (Option.some.inj heq).symm) fun hor => ?_
        exact absurd (hno.2 hor) (Option.some_ne_none q).symm
    · have hne : (Pc.filling b) ≠ .filling x := fun heq => hx (Pc.filling.inj heq).symm
      rw [Function.update_of_ne hx, h.lock, users_iff (by simp [hp]) hne]
  · exact h.valid q x ((hholding x q).1 hq)

/-! ### The rest of `bread` -/

omit [DecidableEq π] in
theorem fill_buf_self (s : State π) (b : Fin nbuf) : (s.fill b).cache.buf b =
    { s.cache.buf b with
      data := if (s.cache.buf b).valid then (s.cache.buf b).data else s.disk (s.cache.buf b).blockno
      valid := true } := by
  rw [State.fill]
  split_ifs with hv
  · rw [← hv]
  · exact Function.update_self _ _ _

omit [DecidableEq π] in
theorem fill_buf_of_ne (s : State π) {x : Fin nbuf} (hx : x ≠ b) :
    (s.fill b).cache.buf x = s.cache.buf x := by
  rw [State.fill]
  split_ifs
  · rfl
  · exact Function.update_of_ne hx _ _

omit [DecidableEq π] in
theorem fill_rest (s : State π) (b : Fin nbuf) : (s.fill b).lock = s.lock ∧ (s.fill b).disk = s.disk ∧
    (s.fill b).pins = s.pins ∧ (s.fill b).users = s.users := by
  rw [State.fill]
  split_ifs <;> exact ⟨rfl, rfl, rfl, rfl⟩

omit [DecidableEq π] in
theorem order_fill {l : List (Fin nbuf)} (h : s.cache.Order l) (b : Fin nbuf) :
    (s.fill b).cache.Order l := by
  rw [State.fill]
  split_ifs
  · exact h
  · exact ⟨h.ring, h.all⟩

theorem Inv.fill (h : Inv s ds) (hs : Shows s c) (hp : s.users p = .filling b) :
    let t := (s.fill b).goto p (.holding b)
    Inv t ds ∧ Simulates s t (.fill p) c := by
  obtain ⟨hflock, hfdisk, hfpins, hfusers⟩ := fill_rest s b
  have hself := fill_buf_self s b
  have hdev := h.dev (p := p) (b := b) (by rw [hp]; rfl)
  have hkeep : ∀ x, ((s.fill b).cache.buf x).dev = (s.cache.buf x).dev ∧
      ((s.fill b).cache.buf x).blockno = (s.cache.buf x).blockno ∧
      ((s.fill b).cache.buf x).refcnt = (s.cache.buf x).refcnt := fun x => by
    by_cases hx : x = b
    · subst hx
      rw [hself]
      exact ⟨rfl, rfl, rfl⟩
    · rw [fill_buf_of_ne s hx]
      exact ⟨rfl, rfl, rfl⟩
  have husers : ((s.fill b).goto p (.holding b)).users = Function.update s.users p (.holding b) := by
    rw [State.goto, hfusers]
  have hfilling : ∀ x q, x ≠ b → (Function.update s.users p (.holding b) q = .filling x ↔
      s.users q = .filling x) := fun x q hx =>
    users_iff (by rw [hp]; exact fun heq => hx (Pc.filling.inj heq).symm) (by simp) q
  have hholding : ∀ x q, x ≠ b → (Function.update s.users p (.holding b) q = .holding x ↔
      s.users q = .holding x) := fun x q hx =>
    users_iff (by simp [hp]) (fun heq => hx (Pc.holding.inj heq).symm) q
  have hlockp : s.lock b = some p := (h.lock b p).2 (.inl hp)
  have honly : ∀ q, s.users q = .filling b ∨ s.users q = .holding b → q = p := fun q hq => by
    have hq' := (h.lock b q).2 hq
    rw [hlockp] at hq'
    exact (Option.some.inj hq').symm
  have hiff : ∀ q, Function.update s.users p (.holding b) q = .holding b ↔ q = p := fun q => by
    by_cases hq : q = p
    · subst hq
      simp only [Function.update_self]
    · rw [Function.update_of_ne hq]
      exact iff_of_false (fun hq' => hq (honly q (.inr hq'))) hq
  refine ⟨h.keep ?_ (fun x => ⟨(hkeep x).1, (hkeep x).2.1⟩) (fun x => ?_) (fun x q => ?_) (fun x hx => ?_)
    fun q x hq => ?_, ?_⟩
  · obtain ⟨l, hl, hrec⟩ := h.order
    exact ⟨l, order_fill hl b, hrec⟩
  · obtain ⟨n, hn, href⟩ := h.count x
    refine ⟨n, ?_, ?_⟩
    · rw [husers]
      exact hn.goto (by rw [hp]; exact Iff.rfl)
    · show ((s.fill b).cache.buf x).refcnt.toNat = n + (s.fill b).pins x
      rw [(hkeep x).2.2, hfpins, href]
  · rw [husers]
    show (s.fill b).lock x = some q ↔ _
    rw [hflock]
    by_cases hx : x = b
    · rw [hx, hiff, hlockp, users_iff_filling hp]
      constructor
      · intro heq
        exact .inr (Option.some.inj heq).symm
      · rintro (hf | rfl)
        · exact absurd (honly q (.inl hf.2)) hf.1
        · rfl
    · rw [hfilling x q hx, hholding x q hx, h.lock]
  · change ((s.fill b).cache.buf x).refcnt ≠ 0 at hx
    rw [(hkeep x).2.2] at hx
    exact h.used x hx
  · rw [husers] at hq
    show ((s.fill b).cache.buf x).valid = true
    by_cases hx : x = b
    · rw [hx, hself]
    · rw [fill_buf_of_ne s hx]
      exact h.valid q x ((hholding x q hx).1 hq)
  · obtain ⟨hcb, hch, hcr⟩ := hs.cached b hdev
    have hfree : c.holder (s.cache.buf b).blockno = none := by
      rw [Option.eq_none_iff_forall_ne_some]
      intro q hq
      have hq' := (hch q).1 hq
      obtain rfl := honly q (.inr hq')
      rw [hp] at hq'
      cases hq'
    have hview : c.view (s.cache.buf b).blockno = ((s.fill b).cache.buf b).data := by
      rw [BlockCache.Cache.view, hcb, hs.disk, hself]
      cases (s.cache.buf b).valid <;> rfl
    refine .one (.bread p (s.cache.buf b).blockno) ?_ (fun _ => trivial) (if_pos hfree)
      (hs.at h (b := b) hdev (hkeep b).2.1 ((hkeep b).1.trans hdev)
        (fun x hx => ⟨fill_buf_of_ne s hx, by rw [← hfpins]; rfl⟩) (fun x hx q => ?_) ?_
        (fun x hx => ⟨Function.update_of_ne hx _ _, Function.update_of_ne hx _ _,
          Function.update_of_ne hx _ _⟩) ⟨?_, fun q => ?_, ?_⟩)
    · simp only [State.event, hp, BlockCache.Cache.event, hview]
    · rw [husers]
      exact hholding x q hx
    · exact hs.disk.trans hfdisk.symm
    · have hvalid : ((s.fill b).cache.buf b).valid = true := congrArg Buf.valid hself
      show Function.update c.buf _ (some (c.view _)) ((s.fill b).cache.buf b).blockno
        = if ((s.fill b).cache.buf b).valid then some ((s.fill b).cache.buf b).data else none
      rw [(hkeep b).2.1, Function.update_self, hview, hvalid]
      rfl
    · show Function.update c.holder _ (some p) ((s.fill b).cache.buf b).blockno = some q ↔ _
      rw [husers, hiff, (hkeep b).2.1, Function.update_self]
      exact ⟨fun heq => (Option.some.inj heq).symm, fun heq => by rw [heq]⟩
    · show Function.update c.refcnt _ _ ((s.fill b).cache.buf b).blockno
        = (s.fill b).pins b + if (Function.update c.holder _ (some p)
          ((s.fill b).cache.buf b).blockno).isSome then 1 else 0
      rw [(hkeep b).2.1, Function.update_self, Function.update_self, hfpins, hcr, hfree]
      rfl

/-! ### Between `bread` and `brelse` -/

omit [DecidableEq π] in
/-- What the cache of blocks has of a buffer that is used. -/
theorem Shows.holding (hs : Shows s c) (h : Inv s ds) (hp : s.users p = .holding b) :
    c.holder (s.cache.buf b).blockno = some p ∧
      c.buf (s.cache.buf b).blockno = some (s.cache.buf b).data ∧
      c.refcnt (s.cache.buf b).blockno = s.pins b + 1 := by
  obtain ⟨hcb, hch, hcr⟩ := hs.cached b (h.dev (p := p) (by rw [hp]; rfl))
  have hholder := (hch p).2 hp
  refine ⟨hholder, ?_, ?_⟩
  · rw [hcb, h.valid p b hp]
    rfl
  · rw [hcr, hholder]
    rfl

omit [DecidableEq π] in
/-- The buffer changes, but not the block that it is for. -/
theorem Inv.held (h : Inv s ds) (hp : s.users p = .holding b) {f : Buf → Buf} {pins : Fin nbuf → ℕ}
    (hf : ∀ x, (f x).dev = x.dev ∧ (f x).blockno = x.blockno ∧ (f x).valid = x.valid)
    (hpins : ∀ x, x ≠ b → pins x = s.pins x)
    (href : ∀ n, (s.cache.buf b).refcnt.toNat = n + s.pins b → n + pins b < 2 ^ 32 →
      (f (s.cache.buf b)).refcnt.toNat = n + pins b)
    (hbound : ({ s.set b f with pins := pins } : State π).Bounded) :
    Inv { s.set b f with pins := pins } ds := by
  have hkeep : ∀ x, ((s.cache.set b f).buf x).dev = (s.cache.buf x).dev ∧
      ((s.cache.set b f).buf x).blockno = (s.cache.buf x).blockno ∧
      ((s.cache.set b f).buf x).valid = (s.cache.buf x).valid := fun x => by
    by_cases hx : x = b
    · subst hx
      rw [set_buf_self]
      exact hf _
    · rw [set_buf_of_ne _ _ hx]
      exact ⟨rfl, rfl, rfl⟩
  refine h.keep ?_ (fun x => ⟨(hkeep x).1, (hkeep x).2.1⟩) (fun x => ?_) h.lock (fun x hx => ?_)
    fun q x hq => ?_
  · obtain ⟨l, hl, hrec⟩ := h.order
    exact ⟨l, hl.set b f, hrec⟩
  · obtain ⟨n, hn, hcount⟩ := h.count x
    refine ⟨n, hn, ?_⟩
    show ((s.cache.set b f).buf x).refcnt.toNat = n + pins x
    by_cases hx : x = b
    · subst hx
      rw [set_buf_self]
      exact href n hcount (hbound x n hn)
    · rw [set_buf_of_ne _ _ hx, hpins x hx, hcount]
  · by_cases hxb : x = b
    · rw [hxb]
      exact h.dev (p := p) (by rw [hp]; rfl)
    · change ((s.cache.set b f).buf x).refcnt ≠ 0 at hx
      rw [set_buf_of_ne _ _ hxb] at hx
      exact h.used x hx
  · exact ((hkeep x).2.2).trans (h.valid q x hq)

omit [DecidableEq π] in
/-- So does the block. -/
theorem Shows.held (hs : Shows s c) (h : Inv s ds) (hp : s.users p = .holding b) {f : Buf → Buf}
    {pins : Fin nbuf → ℕ}
    (hf : ∀ x, (f x).dev = x.dev ∧ (f x).blockno = x.blockno ∧ (f x).valid = x.valid)
    (hpins : ∀ x, x ≠ b → pins x = s.pins x) (hdisk : d.disk = c.disk) (hholder : d.holder = c.holder)
    (hother : ∀ x, x ≠ (s.cache.buf b).blockno → d.buf x = c.buf x ∧ d.refcnt x = c.refcnt x)
    (hbuf : d.buf (s.cache.buf b).blockno = some (f (s.cache.buf b)).data)
    (href : d.refcnt (s.cache.buf b).blockno = pins b + 1) :
    Shows { s.set b f with pins := pins } d := by
  obtain ⟨hch, -, -⟩ := hs.holding h hp
  obtain ⟨hfdev, hfblock, hfvalid⟩ := hf (s.cache.buf b)
  have hdev : (s.cache.buf b).dev = rootDev := h.dev (p := p) (by rw [hp]; rfl)
  have hself : (s.cache.set b f).buf b = f (s.cache.buf b) := set_buf_self _ _ _
  refine hs.at h hdev (congrArg Buf.blockno hself |>.trans hfblock)
    ((congrArg Buf.dev hself).trans (hfdev.trans hdev)) (fun x hx => ⟨set_buf_of_ne _ _ hx, hpins x hx⟩)
    (fun x _ q => Iff.rfl) (hdisk.trans hs.disk)
    (fun x hx => ⟨(hother x hx).1, (hother x hx).2, by rw [hholder]⟩) ⟨?_, fun q => ?_, ?_⟩
  · show d.buf ((s.cache.set b f).buf b).blockno
      = if ((s.cache.set b f).buf b).valid then some ((s.cache.set b f).buf b).data else none
    rw [hself, hfblock, hfvalid, h.valid p b hp, hbuf]
    rfl
  · show d.holder ((s.cache.set b f).buf b).blockno = some q ↔ s.users q = .holding b
    rw [hself, hfblock, hholder]
    exact (hs.cached b hdev).holder q
  · show d.refcnt ((s.cache.set b f).buf b).blockno
      = pins b + if (d.holder ((s.cache.set b f).buf b).blockno).isSome then 1 else 0
    rw [hself, hfblock, hholder, hch, href]
    rfl

theorem Inv.write (h : Inv s ds) (hs : Shows s c) (hp : s.users p = .holding b) (data : Block) :
    ((s.set b fun x => { x with data := data }).Bounded →
      Inv (s.set b fun x => { x with data := data }) ds) ∧
      Simulates s (s.set b fun x => { x with data := data }) (.write p data) c := by
  obtain ⟨hch, -, hcr⟩ := hs.holding h hp
  refine ⟨h.held hp (f := fun x => { x with data := data }) (fun _ => ⟨rfl, rfl, rfl⟩)
      (fun _ _ => rfl) fun n hn _ => hn,
    .one (.write p (s.cache.buf b).blockno data) ?_ (fun _ => trivial) (if_pos hch)
      (hs.held h hp (f := fun x => { x with data := data }) (fun _ => ⟨rfl, rfl, rfl⟩)
        (fun _ _ => rfl) rfl rfl
        (fun x hx => ⟨Function.update_of_ne hx _ _, rfl⟩) (Function.update_self _ _ _) hcr)⟩
  simp only [State.event, hp, BlockCache.Cache.event]

theorem Inv.bwrite (h : Inv s ds) (hs : Shows s c) (hp : s.users p = .holding b) :
    let t := { s with
      disk := Function.update s.disk (s.cache.buf b).blockno (s.cache.buf b).data }
    Inv t ds ∧ Simulates s t (.bwrite p) c := by
  obtain ⟨hch, hcb, -⟩ := hs.holding h hp
  refine ⟨⟨h.order, h.unique, h.count, h.lock, h.used, h.valid⟩,
    .one (.bwrite p (s.cache.buf b).blockno) ?_ (fun _ => trivial) (if_pos hch)
      ⟨?_, fun x hx => ⟨(hs.cached x hx).buf, (hs.cached x hx).holder, (hs.cached x hx).refcnt⟩,
        hs.absent⟩⟩
  · simp only [State.event, hp, BlockCache.Cache.event]
  · show Function.update c.disk _ (c.view _) = Function.update s.disk _ _
    rw [BlockCache.Cache.view, hcb, hs.disk]
    rfl

theorem Inv.bpin (h : Inv s ds) (hs : Shows s c) (hp : s.users p = .holding b) :
    let t := { s.set b fun x => { x with refcnt := x.refcnt + 1 } with
      pins := Function.update s.pins b (s.pins b + 1) }
    (t.Bounded → Inv t ds) ∧ Simulates s t (.bpin p) c := by
  obtain ⟨hch, hcb, hcr⟩ := hs.holding h hp
  have hpins : ∀ x, x ≠ b → Function.update s.pins b (s.pins b + 1) x = s.pins x :=
    fun x hx => Function.update_of_ne hx _ _
  refine ⟨h.held hp (fun _ => ⟨rfl, rfl, rfl⟩) hpins fun n hn hlt => ?_,
    .one (.bpin p (s.cache.buf b).blockno) ?_ (fun _ => trivial) (if_pos hch)
      (hs.held h hp (fun _ => ⟨rfl, rfl, rfl⟩) hpins rfl rfl
        (fun x hx => ⟨rfl, Function.update_of_ne hx _ _⟩) hcb ?_)⟩
  · rw [Function.update_self] at hlt ⊢
    show ((s.cache.buf b).refcnt + 1#32).toNat = n + (s.pins b + 1)
    rw [toNat_succ (by omega), hn]
    omega
  · simp only [State.event, hp, BlockCache.Cache.event]
  · show Function.update c.refcnt _ (c.refcnt _ + 1) _ = _
    rw [Function.update_self, Function.update_self, hcr]

theorem Inv.bunpin (h : Inv s ds) (hs : Shows s c) (hp : s.users p = .holding b)
    (hpos : 0 < s.pins b) :
    let t := { s.set b fun x => { x with refcnt := x.refcnt - 1 } with
      pins := Function.update s.pins b (s.pins b - 1) }
    (t.Bounded → Inv t ds) ∧ Simulates s t (.bunpin p) c := by
  obtain ⟨hch, hcb, hcr⟩ := hs.holding h hp
  have hpins : ∀ x, x ≠ b → Function.update s.pins b (s.pins b - 1) x = s.pins x :=
    fun x hx => Function.update_of_ne hx _ _
  refine ⟨h.held hp (fun _ => ⟨rfl, rfl, rfl⟩) hpins fun n hn hlt => ?_,
    .one (.bunpin p (s.cache.buf b).blockno) ?_ (fun _ => ?_) (if_pos hch)
      (hs.held h hp (fun _ => ⟨rfl, rfl, rfl⟩) hpins rfl rfl
        (fun x hx => ⟨rfl, Function.update_of_ne hx _ _⟩) hcb ?_)⟩
  · rw [Function.update_self]
    show ((s.cache.buf b).refcnt - 1#32).toNat = n + (s.pins b - 1)
    rw [toNat_pred (by omega), hn]
    omega
  · simp only [State.event, hp, BlockCache.Cache.event]
  · show 1 < c.refcnt _
    rw [hcr]
    omega
  · show Function.update c.refcnt _ (c.refcnt _ - 1) _ = _
    rw [Function.update_self, Function.update_self, hcr]
    omega

/-! ### `brelse` -/

theorem Inv.releasesleep (h : Inv s ds) (hs : Shows s c) (hp : s.users p = .holding b) :
    let t := { s with lock := Function.update s.lock b none }.goto p (.releasing b)
    Inv t ds ∧ Simulates s t (.releasesleep p) c := by
  obtain ⟨hch, hcb, hcr⟩ := hs.holding h hp
  have hdev : (s.cache.buf b).dev = rootDev := h.dev (p := p) (by rw [hp]; rfl)
  have hlockp : s.lock b = some p := (h.lock b p).2 (.inr hp)
  have honly : ∀ q, s.users q = .filling b ∨ s.users q = .holding b → q = p := fun q hq => by
    have hq' := (h.lock b q).2 hq
    rw [hlockp] at hq'
    exact (Option.some.inj hq').symm
  have hfilling : ∀ x q, Function.update s.users p (.releasing b) q = .filling x ↔
      s.users q = .filling x := fun x q => users_iff (by simp [hp]) (by simp) q
  have hholding : ∀ x q, x ≠ b → (Function.update s.users p (.releasing b) q = .holding x ↔
      s.users q = .holding x) := fun x q hx =>
    users_iff (by rw [hp]; exact fun heq => hx (Pc.holding.inj heq).symm) (by simp) q
  have hnobody : ∀ q, Function.update s.users p (.releasing b) q ≠ .holding b := fun q => by
    by_cases hq : q = p
    · subst hq
      simp only [Function.update_self, ne_eq, reduceCtorEq, not_false_eq_true]
    · rw [Function.update_of_ne hq]
      exact fun hq' => hq (honly q (.inr hq'))
  refine ⟨h.keep h.order (fun x => ⟨rfl, rfl⟩) (fun x => ?_) (fun x q => ?_) h.used fun q x hq => ?_,
    .one (.brelse p (s.cache.buf b).blockno) ?_ (fun hcareful hone => ?_) (if_pos hch)
      (hs.at h hdev rfl hdev (fun x _ => ⟨rfl, rfl⟩) (fun x hx q => hholding x q hx) hs.disk
        (fun x hx => ⟨rfl, Function.update_of_ne hx _ _, Function.update_of_ne hx _ _⟩)
        ⟨?_, fun q => ?_, ?_⟩)⟩
  · obtain ⟨n, hn, href⟩ := h.count x
    exact ⟨n, hn.goto (by rw [hp]; exact Iff.rfl), href⟩
  · show Function.update s.lock b none x = some q ↔
      Function.update s.users p (.releasing b) q = .filling x ∨
        Function.update s.users p (.releasing b) q = .holding x
    rw [hfilling]
    by_cases hx : x = b
    · subst hx
      rw [Function.update_self]
      refine iff_of_false (Option.some_ne_none q).symm ?_
      rintro (hq | hq)
      · have hqp := honly q (.inl hq)
        rw [hqp, hp] at hq
        cases hq
      · exact hnobody q hq
    · rw [Function.update_of_ne hx, h.lock, hholding x q hx]
  · by_cases hx : x = b
    · subst hx
      exact absurd hq (hnobody q)
    · exact h.valid q x ((hholding x q hx).1 hq)
  · simp only [State.event, hp, BlockCache.Cache.event]
  · rw [hcr] at hone
    have hdata : (s.cache.buf b).data = s.disk (s.cache.buf b).blockno :=
      (hcareful b hp).resolve_left (by omega)
    rw [BlockCache.Cache.view, hcb, hs.disk, ← hdata]
    rfl
  · exact (hs.cached b hdev).buf
  · show Function.update c.holder (s.cache.buf b).blockno none (s.cache.buf b).blockno = some q ↔ _
    rw [Function.update_self]
    exact iff_of_false (Option.some_ne_none q).symm (hnobody q)
  · show Function.update c.refcnt (s.cache.buf b).blockno (c.refcnt _ - 1) (s.cache.buf b).blockno
      = s.pins b + if (Function.update c.holder (s.cache.buf b).blockno none
        (s.cache.buf b).blockno).isSome then 1 else 0
    rw [Function.update_self, Function.update_self, hcr]
    rfl

/-- The last reference puts the buffer in front. -/
theorem Inv.unref (h : Inv s ds) (hs : Shows s c) (hp : s.users p = .releasing b) :
    let t := { s with cache := s.cache.unref b }.goto p .idle
    Inv t (s.drops (.unref p) ++ ds) ∧ Shows t c := by
  have hpos : 0 < (s.cache.buf b).refcnt.toNat := h.refcnt_pos (p := p) (by rw [hp]; rfl)
  have hlast : (s.cache.buf b).refcnt - 1 = 0 ↔ (s.cache.buf b).refcnt = 1 := by
    have hpred : ((s.cache.buf b).refcnt - 1).toNat = (s.cache.buf b).refcnt.toNat - 1 := toNat_pred hpos
    rw [← BitVec.toNat_inj, ← BitVec.toNat_inj, hpred]
    show _ - 1 = 0 ↔ _ = 1
    omega
  have hbuf : (s.cache.unref b).buf = (s.cache.set b fun x => { x with refcnt := x.refcnt - 1 }).buf := by
    simp only [Bcache.unref]
    split_ifs <;> rfl
  have hself : (s.cache.unref b).buf b
      = { s.cache.buf b with refcnt := (s.cache.buf b).refcnt - 1 } := by
    rw [hbuf]
    exact set_buf_self _ _ _
  have hne : ∀ x, x ≠ b → (s.cache.unref b).buf x = s.cache.buf x := fun x hx => by
    rw [hbuf]
    exact set_buf_of_ne _ _ hx
  have hkeep : ∀ x, ((s.cache.unref b).buf x).dev = (s.cache.buf x).dev ∧
      ((s.cache.unref b).buf x).blockno = (s.cache.buf x).blockno ∧
      ((s.cache.unref b).buf x).valid = (s.cache.buf x).valid ∧
      ((s.cache.unref b).buf x).data = (s.cache.buf x).data := fun x => by
    by_cases hx : x = b
    · subst hx
      rw [hself]
      exact ⟨rfl, rfl, rfl, rfl⟩
    · rw [hne x hx]
      exact ⟨rfl, rfl, rfl, rfl⟩
  have hholding : ∀ x q, Function.update s.users p .idle q = .holding x ↔
      s.users q = .holding x := fun x q => users_iff (by simp [hp]) (by simp) q
  have hfilling : ∀ x q, Function.update s.users p .idle q = .filling x ↔
      s.users q = .filling x := fun x q => users_iff (by simp [hp]) (by simp) q
  refine ⟨h.keep ?_ (fun x => ⟨(hkeep x).1, (hkeep x).2.1⟩) (fun x => ?_) (fun x q => ?_)
    (fun x hx => ?_) fun q x hq => ?_, hs.same hkeep rfl rfl hholding⟩
  · obtain ⟨l, hl, hrec⟩ := h.order
    have hset := hl.set b fun x => { x with refcnt := x.refcnt - 1 }
    show ∃ l, (s.cache.unref b).Order l ∧ Recent (s.drops (.unref p) ++ ds) l
    simp only [Bcache.unref, set_buf_self, State.drops, hp]
    by_cases hone : (s.cache.buf b).refcnt = 1
    · rw [if_pos (hlast.2 hone), if_pos hone]
      obtain ⟨l₁, l₂, rfl⟩ := List.append_of_mem (hl.all b)
      have hnd := hl.nodup
      rw [List.nodup_middle, List.nodup_cons] at hnd
      exact ⟨_, hset.to_front, hrec.to_front hnd.1⟩
    · rw [if_neg fun hzero => hone (hlast.1 hzero), if_neg hone]
      exact ⟨l, hset, hrec⟩
  · obtain ⟨n, hn, href⟩ := h.count x
    by_cases hx : x = b
    · subst hx
      obtain ⟨hnpos, hleave⟩ := hn.leave (p := p) (by rw [hp]; rfl)
        (show Pc.idle.ref ≠ some x by simp [Pc.ref])
      refine ⟨n - 1, hleave, ?_⟩
      show ((s.cache.unref x).buf x).refcnt.toNat = n - 1 + s.pins x
      rw [hself]
      show ((s.cache.buf x).refcnt - 1#32).toNat = n - 1 + s.pins x
      rw [toNat_pred hpos]
      omega
    · refine ⟨n, hn.goto (iff_of_false (by simp [Pc.ref]) ?_), ?_⟩
      · rw [hp]
        exact fun heq => hx (Option.some.inj heq).symm
      · show ((s.cache.unref b).buf x).refcnt.toNat = n + s.pins x
        rw [hne x hx, href]
  · show s.lock x = some q ↔ _
    rw [h.lock]
    exact or_congr (hfilling x q).symm (hholding x q).symm
  · by_cases hxb : x = b
    · rw [hxb]
      exact h.dev (p := p) (by rw [hp]; rfl)
    · change ((s.cache.unref b).buf x).refcnt ≠ 0 at hx
      rw [hne x hxb] at hx
      exact h.used x hx
  · exact (hkeep x).2.2.1.trans (h.valid q x ((hholding x q).1 hq))

/-! ## One step -/

/-- A step keeps the invariant and is what the cache of blocks does, or `bget` finds all buffers
referenced. -/
theorem Inv.step (h : Inv s ds) (hs : Shows s c) (hallow : s.Allows a) :
    (∃ t, s.step a = .ok t ∧ (t.Bounded → Inv t (s.drops a ++ ds)) ∧ Simulates s t a c) ∨
      ∃ p blockno, a = .bget p blockno ∧ s.step a = .error (.panic "bget: no buffers") ∧
        ∀ b, (s.cache.buf b).refcnt ≠ 0 := by
  cases a with
  | bget p blockno =>
    rcases h.bget hs hallow blockno with hok | ⟨herr, hall⟩
    · exact .inl hok
    · exact .inr ⟨p, blockno, rfl, herr, hall⟩
  | acquiresleep p =>
    obtain ⟨b, hp, hfree⟩ := hallow
    obtain ⟨hinv, hshows⟩ := h.acquiresleep hs hp hfree
    exact .inl ⟨_, by simp only [State.step, hp]; rfl, fun _ => hinv, .none rfl hshows⟩
  | fill p =>
    obtain ⟨b, hp⟩ := hallow
    obtain ⟨hinv, hsim⟩ := h.fill hs hp
    exact .inl ⟨_, by simp only [State.step, hp]; rfl, fun _ => hinv, hsim⟩
  | write p data =>
    obtain ⟨b, hp⟩ := hallow
    exact .inl ⟨_, by simp only [State.step, hp]; rfl, h.write hs hp data⟩
  | bwrite p =>
    obtain ⟨b, hp⟩ := hallow
    have hlock : s.lock b = some p := (h.lock b p).2 (.inr hp)
    obtain ⟨hinv, hsim⟩ := h.bwrite hs hp
    exact .inl ⟨_, by simp only [State.step, hp, if_pos hlock]; rfl, fun _ => hinv, hsim⟩
  | releasesleep p =>
    obtain ⟨b, hp⟩ := hallow
    have hlock : s.lock b = some p := (h.lock b p).2 (.inr hp)
    obtain ⟨hinv, hsim⟩ := h.releasesleep hs hp
    exact .inl ⟨_, by simp only [State.step, hp, if_pos hlock]; rfl, fun _ => hinv, hsim⟩
  | unref p =>
    obtain ⟨b, hp⟩ := hallow
    obtain ⟨hinv, hshows⟩ := h.unref hs hp
    exact .inl ⟨_, by simp only [State.step, hp]; rfl, fun _ => hinv, .none rfl hshows⟩
  | bpin p =>
    obtain ⟨b, hp⟩ := hallow
    exact .inl ⟨_, by simp only [State.step, hp]; rfl, h.bpin hs hp⟩
  | bunpin p =>
    obtain ⟨b, hp, hpos⟩ := hallow
    exact .inl ⟨_, by simp only [State.step, hp]; rfl, h.bunpin hs hp hpos⟩

end Xv6Bio

end KianRiscV
