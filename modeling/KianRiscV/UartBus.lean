/-
# The UARTs on the bus

The two UARTs of the first SoC behind the bus of `soc.v`.  A request stays on the bus for several
cycles: the flag `tx_seen` makes a write count once, and the registered ready, which is the pop
of the receive buffer too, makes a read count once.  So the bytes the shifters take are those of
the writes, and the values read are the bytes the receivers have pushed, for every divisor and
whatever the line does.
-/
import KianRiscV.SocHandshake
import KianRiscV.UartQueues
import Mathlib.Tactic.IntervalCases

namespace KianRiscV

variable {iset iways dset dways aw : ℕ}

/-! ## The model -/

/-- The bus, the UARTs and the registers `lsr_thre`. -/
structure UartSoc (ipolicy : ReplacementPolicy iset iways) (dpolicy : ReplacementPolicy dset dways)
    (aw : ℕ) where
  soc : Soc ipolicy dpolicy
  tx : Fin 2 → TxUart aw
  rx : Fin 2 → RxUart aw
  lsrThre : Fin 2 → Bool

/-- What comes in a cycle: the access of the master, the other slaves with their read data, the
divisor and the serial lines. -/
structure UartSocIn where
  bus : BusAccess
  env : SocEnv
  div : BitVec 16
  uartRx : Fin 2 → Bool
  bramRdata : Word
  spiNorMemData : Word
  memSdramRdata : Word
  deviceRdata : Word

/-- `cpu_mem_wdata[7:0]`. -/
def UartSocIn.txData (i : UartSocIn) : BitVec 8 := i.bus.wdata.extractLsb' 0 8

namespace UartSoc

variable {ipolicy : ReplacementPolicy iset iways} {dpolicy : ReplacementPolicy dset dways}
  (cfg : SocConfig) (stopBits : ℕ) (s : UartSoc ipolicy dpolicy aw) (i : UartSocIn) (k : Fin 2)

/-- The environment of the bus, with `uart_tx_rdy` from the transmitters. -/
def env : SocEnv := { i.env with uartTxRdy := fun k => (s.tx k).ready }

/-- `cpu_mem_ready`. -/
def cpuMemReady : Bool := s.soc.cpuMemReady cfg i.bus (s.env i)

/-- `uart_tx_valid_wr`. -/
def uartTxValidWr : Bool := s.soc.txAccept i.bus (s.env i) k

/-- One clock edge. -/
def next : UartSoc ipolicy dpolicy aw where
  soc := s.soc.next cfg i.bus (s.env i)
  tx k := (s.tx k).next .first stopBits i.div (s.uartTxValidWr i k) i.txData
  rx k := (s.rx k).next .first i.div (i.uartRx k) (s.soc.uartRxReady k)
  lsrThre k := !s.uartTxValidWr i k && ((s.tx k).ready || s.lsrThre k)

/-- `byteswaiting`. -/
def byteswaiting : BitVec 8 :=
  BitVec.ofBool false ++ BitVec.ofBool (!(s.tx k).busy) ++ BitVec.ofBool (s.lsrThre k) ++
    BitVec.ofBool false ++ 0b000#3 ++ BitVec.ofBool ((s.rx k).data != 0xFFFFFFFF#32)

/-- `io_rdata_uart`. -/
def ioRdataUart : Word :=
  if s.soc.uartLsrRdy k then 0x0000#16 ++ s.byteswaiting k ++ 0x00#8
  else if s.soc.uartRxReady k then (s.rx k).data
  else 0#32

/-- `io_ready_uart`. -/
def ioReadyUart : Bool := s.soc.uartLsrRdy k || s.soc.uartRxReady k || s.soc.uartTxReady k

/-- `rmb_index`: the lowest bit of `io_ready_uart`. -/
def rmbIndex : Fin 2 := if s.ioReadyUart 0 then 0 else 1

/-- `io_rdata`. -/
def ioRdata : Word :=
  if i.bus.isIo then
    if s.soc.ioReadyUart then s.ioRdataUart s.rmbIndex else i.deviceRdata
  else 0#32

/-- `cpu_mem_rdata`. -/
def cpuMemRdata : Word :=
  if s.soc.bramReady then i.bramRdata
  else if s.soc.flashReady then i.spiNorMemData
  else if s.soc.memSdramReady i.bus (s.env i) then i.memSdramRdata
  else if s.soc.ioReady cfg i.bus then s.ioRdata i
  else 0#32

/-- The registers after reset; the memories are not cleared. -/
structure IsReset : Prop where
  soc : s.soc.IsReset
  tx : ∀ k, ∃ ram, s.tx k = TxUart.resetState ram
  rx : ∀ k, ∃ ram, s.rx k = RxUart.resetState .first ram
  lsrThre : ∀ k, s.lsrThre k = true

/-! ## Runs -/

section

variable (inp : ℕ → UartSocIn)

/-- The registers after `n` cycles. -/
def run (n : ℕ) : UartSoc ipolicy dpolicy aw := Sync.run (next cfg stopBits) s inp n

/-- `cpu_mem_ready` in cycle `n`. -/
def readyAt (n : ℕ) : Bool := (run cfg stopBits s inp n).cpuMemReady cfg (inp n)

/-- The master holds a request until it is answered and then leaves the bus for a cycle at
least, its fetches do not write, and it does not reset the SoC. -/
structure Waits : Prop where
  follows : ∀ n, Soc.Follows (readyAt cfg stopBits s inp n) (inp n).bus (inp (n + 1)).bus
  fetch : ∀ n, (inp n).bus.isInstruction = true → (inp n).bus.wr = false
  noReboot : ∀ n, (inp n).bus.isRebootValid = false

/-- The low bytes of the writes to the transmit register, in the order of their answers. -/
def writes (n : ℕ) : List (BitVec 8) :=
  Sync.log (fun m => if Soc.txHit (inp m).bus k && readyAt cfg stopBits s inp m then
    some (inp m).txData else none) n

/-- The bytes the shifter has taken from the transmit buffer. -/
def taken (n : ℕ) : List (BitVec 8) :=
  Sync.log (fun m => ((run cfg stopBits s inp m).tx k).taken) n

/-- The bytes the receiver has pushed into its buffer. -/
def pushed (n : ℕ) : List (BitVec 8) :=
  Sync.log (fun m => ((run cfg stopBits s inp m).rx k).pushed) n

/-- The values returned by reads of the receive register, without the answers all ones. -/
def returned (n : ℕ) : List Word :=
  Sync.log (fun m => if Soc.rxHit (inp m).bus k && readyAt cfg stopBits s inp m &&
      (run cfg stopBits s inp m).cpuMemRdata cfg (inp m) != 0xFFFFFFFF#32 then
    some ((run cfg stopBits s inp m).cpuMemRdata cfg (inp m)) else none) n

end

variable {cfg stopBits s k} {inp : ℕ → UartSocIn}

theorem tx_succ (k : Fin 2) (n : ℕ) :
    (run cfg stopBits s inp (n + 1)).tx k =
      ((run cfg stopBits s inp n).tx k).next .first stopBits (inp n).div
        ((run cfg stopBits s inp n).uartTxValidWr (inp n) k) (inp n).txData := rfl

theorem rx_succ (k : Fin 2) (n : ℕ) :
    (run cfg stopBits s inp (n + 1)).rx k =
      ((run cfg stopBits s inp n).rx k).next .first (inp n).div ((inp n).uartRx k)
        ((run cfg stopBits s inp n).soc.uartRxReady k) := rfl

theorem IsReset.txOk (hs : s.IsReset) (k : Fin 2) :
    (s.tx k).Ok ∧ (s.tx k).pending = [] ∧ (s.tx k).Sound := by
  obtain ⟨ram, hram⟩ := hs.tx k
  rw [hram]
  exact ⟨TxUart.ok_resetState ram, rfl, fun h => TxState.noConfusion h⟩

theorem IsReset.rxOk (hs : s.IsReset) (k : Fin 2) :
    (s.rx k).fifo.WF ∧ (s.rx k).fifo.toList = [] := by
  obtain ⟨ram, hram⟩ := hs.rx k
  rw [hram]
  exact ⟨Fifo.wf_resetState ram, rfl⟩

/-- A request that is never answered stays on the bus. -/
theorem Waits.stays (hw : Waits cfg stopBits s inp) {n : ℕ} (hv : (inp n).bus.valid = true)
    (hno : ∀ m, n ≤ m → (inp m).bus = (inp n).bus → readyAt cfg stopBits s inp m = false) (m : ℕ)
    (hnm : n ≤ m) : (inp m).bus = (inp n).bus ∧ readyAt cfg stopBits s inp m = false := by
  induction m, hnm using Nat.le_induction with
  | base => exact ⟨rfl, hno n le_rfl rfl⟩
  | succ m hnm ih =>
    have hbus : (inp (m + 1)).bus = (inp n).bus :=
      ((hw.follows m).hold (by rw [ih.1]; exact hv) ih.2).trans ih.1
    exact ⟨hbus, hno (m + 1) (by omega) hbus⟩

section

variable (hs : s.IsReset) (hw : Waits cfg stopBits s inp)

include hs hw

/-- The answers stay with the requests. -/
theorem Waits.tied (n : ℕ) : (run cfg stopBits s inp n).soc.Tied cfg (inp n).bus := by
  induction n with
  | zero => exact hs.soc.tied _
  | succ n ih => exact ih.step (hw.fetch n) (hw.follows n)

theorem Waits.ready_of_txHit {n : ℕ} (hx : Soc.txHit (inp n).bus k = true) :
    readyAt cfg stopBits s inp n = (run cfg stopBits s inp n).soc.uartTxReady k :=
  (hw.tied hs n).ready_of_txHit (hw.fetch n) hx

theorem Waits.ready_of_rxHit {n : ℕ} (hx : Soc.rxHit (inp n).bus k = true) :
    readyAt cfg stopBits s inp n = (run cfg stopBits s inp n).soc.uartRxReady k :=
  (hw.tied hs n).ready_of_rxHit hx

/-! ## Writes -/

/-- A write whose byte is taken by the transmitter is answered in the next cycle. -/
theorem Waits.of_uartTxValidWr {n : ℕ}
    (ha : (run cfg stopBits s inp n).uartTxValidWr (inp n) k = true) :
    Soc.txHit (inp n).bus k = true ∧ (inp (n + 1)).bus = (inp n).bus ∧
      readyAt cfg stopBits s inp (n + 1) = true := by
  obtain ⟨hx, hr⟩ := (hw.tied hs n).tx_next (hw.fetch n) ha
  have hbus : (inp (n + 1)).bus = (inp n).bus :=
    (hw.follows n).hold (Soc.txHit_iff.1 hx).1 hr
  refine ⟨hx, hbus, ?_⟩
  rw [← hbus] at hx
  rw [hw.ready_of_txHit hs hx]
  exact ha

/-- The answered writes are the bytes put into the transmit buffer a cycle before. -/
theorem Waits.writes_succ (n : ℕ) :
    writes cfg stopBits s k inp (n + 1) =
      Sync.log (fun m => ((run cfg stopBits s inp m).tx k).written
        ((run cfg stopBits s inp m).uartTxValidWr (inp m) k) (inp m).txData) n := by
  refine Sync.log_shift ?_ (fun m => ?_) n
  · -- Nothing is answered after reset.
    have hnot : (Soc.txHit (inp 0).bus k && readyAt cfg stopBits s inp 0) = false := by
      cases hx : Soc.txHit (inp 0).bus k with
      | false => rfl
      | true =>
        rw [hw.ready_of_txHit hs hx]
        exact (hs.soc.uart k).1
    rw [hnot]
    rfl
  · cases ha : (run cfg stopBits s inp m).uartTxValidWr (inp m) k with
    | true =>
      obtain ⟨hx, hbus, hr⟩ := hw.of_uartTxValidWr hs ha
      have hfull : ((run cfg stopBits s inp m).tx k).fifo.full = false := by
        simp only [uartTxValidWr, Soc.txAccept, Bool.and_eq_true] at ha
        simpa [env, TxUart.ready] using ha.2
      rw [hbus, hx, hr, UartSocIn.txData, UartSocIn.txData, hbus, TxUart.written, hfull]
      rfl
    | false =>
      have hnot : (Soc.txHit (inp (m + 1)).bus k && readyAt cfg stopBits s inp (m + 1)) = false := by
        cases hx : Soc.txHit (inp (m + 1)).bus k with
        | false => rfl
        | true =>
          rw [hw.ready_of_txHit hs hx]
          exact ha
      rw [hnot, TxUart.written]
      rfl

theorem Waits.taken_prefix (n : ℕ) :
    taken cfg stopBits s k inp n <+: writes cfg stopBits s k inp n := by
  obtain ⟨hok, hnil, -⟩ := hs.txOk k
  cases n with
  | zero => exact List.nil_prefix
  | succ n =>
    rw [hw.writes_succ hs n]
    exact TxUart.log_taken_prefix (R := fun m => (run cfg stopBits s inp m).tx k)
      (tx_succ k) hok hnil n

theorem Waits.exists_taken (n : ℕ) :
    ∃ m, writes cfg stopBits s k inp n <+: taken cfg stopBits s k inp m := by
  obtain ⟨hok, hnil, hsound⟩ := hs.txOk k
  obtain ⟨m, -, hm⟩ := TxUart.exists_taken (R := fun m => (run cfg stopBits s inp m).tx k)
    (tx_succ k) hsound hok hnil n
  refine ⟨m, List.IsPrefix.trans ?_ hm⟩
  rw [← hw.writes_succ hs n]
  exact Sync.log_mono _ (Nat.le_succ n)

/-- A write waits no longer than the transmit buffer is full, and the shifter empties it. -/
theorem Waits.write_answered {n : ℕ} (hx : Soc.txHit (inp n).bus k = true) :
    ∃ m, n ≤ m ∧ (inp m).bus = (inp n).bus ∧ readyAt cfg stopBits s inp m = true := by
  by_contra hnone
  have hno := hw.stays (Soc.txHit_iff.1 hx).1 fun m hm hbus =>
    Bool.eq_false_of_not_eq_true fun hr => hnone ⟨m, hm, hbus, hr⟩
  have hacc : ∀ m, n ≤ m → (run cfg stopBits s inp m).uartTxValidWr (inp m) k = false := by
    intro m hm
    apply Bool.eq_false_of_not_eq_true
    intro ha
    have hr := (hw.of_uartTxValidWr hs ha).2.2
    rw [(hno (m + 1) (by omega)).2] at hr
    exact Bool.noConfusion hr
  obtain ⟨hok, hnil, hsound⟩ := hs.txOk k
  obtain ⟨m, hnm, hfull⟩ := TxUart.exists_not_full (R := fun m => (run cfg stopBits s inp m).tx k)
    (tx_succ k) hsound hok hnil (n := n) fun j hj => by
      rw [hacc j hj, TxUart.written]
      rfl
  have hx' : Soc.txHit (inp m).bus k = true := by
    rw [(hno m hnm).1]
    exact hx
  have hseen : (run cfg stopBits s inp m).soc.txSeen k = false := by
    rw [(hw.tied hs m).seen k hx', ← hw.ready_of_txHit hs hx']
    exact (hno m hnm).2
  have htrue : (run cfg stopBits s inp m).uartTxValidWr (inp m) k = true := by
    simp [uartTxValidWr, Soc.txAccept, hx', hseen, env, TxUart.ready, hfull]
  rw [hacc m hnm] at htrue
  exact Bool.noConfusion htrue

/-! ## Reads -/

/-- A read takes two cycles. -/
theorem Waits.read_answered {n : ℕ} (hx : Soc.rxHit (inp n).bus k = true) :
    ∃ m, n ≤ m ∧ (inp m).bus = (inp n).bus ∧ readyAt cfg stopBits s inp m = true := by
  cases hr : readyAt cfg stopBits s inp n with
  | true => exact ⟨n, le_rfl, rfl, hr⟩
  | false =>
    obtain ⟨hv, hrd, haddr⟩ := Soc.rxHit_iff.1 hx
    have hbus : (inp (n + 1)).bus = (inp n).bus := (hw.follows n).hold hv hr
    have hx' : Soc.rxHit (inp (n + 1)).bus k = true := by
      rw [hbus]
      exact hx
    refine ⟨n + 1, Nat.le_succ n, hbus, ?_⟩
    rw [hw.ready_of_rxHit hs hx] at hr
    rw [hw.ready_of_rxHit hs hx']
    show (run cfg stopBits s inp n).soc.uartRxValidRd (inp n).bus k = true
    simp [Soc.uartRxValidRd, hr, hv, hrd, haddr, BusAccess.uartRxAddr, BusAccess.uartTxAddr]

/-- The read data of the answer is that of the receiver. -/
theorem Waits.rdata_of_rxHit {n : ℕ} (hx : Soc.rxHit (inp n).bus k = true)
    (hr : (run cfg stopBits s inp n).soc.uartRxReady k = true) :
    (run cfg stopBits s inp n).cpuMemRdata cfg (inp n) = ((run cfg stopBits s inp n).rx k).data := by
  have ht := hw.tied hs n
  obtain ⟨hv, -, haddr⟩ := Soc.rxHit_iff.1 hx
  obtain ⟨S, hS⟩ : ∃ S, S = run cfg stopBits s inp n := ⟨_, rfl⟩
  rw [← hS] at ht hr ⊢
  have hio := Soc.isIo_of_uartTxAddr haddr
  obtain ⟨hb, hf, hsd⟩ : (inp n).bus.isBram = false ∧ (inp n).bus.isFlash cfg = false ∧
      BusAccess.inSdram cfg (inp n).bus.addr = false := BusAccess.of_isIo hio
  obtain ⟨hlsr, hother⟩ := ht.uart_alone hv haddr
  have huart : S.soc.ioReadyUart = true := by
    simp only [Soc.ioReadyUart, List.any_eq_true]
    exact ⟨k, List.mem_finRange k, by simp [hr]⟩
  have hioReady : S.soc.ioReady cfg (inp n).bus = true := by simp [Soc.ioReady, hio, huart]
  have hidx : S.rmbIndex = k := by
    unfold rmbIndex
    by_cases hk : k = 0
    · subst hk
      simp [ioReadyUart, hr]
    · have h0 := hother 0 (fun h => hk h.symm)
      have hk1 : k = 1 := by omega
      simp [ioReadyUart, hlsr, h0, hk1]
  rw [cpuMemRdata, ht.bramReady_eq hv hb, ht.flashReady_eq hf, ht.memSdramReady_eq hsd, hioReady,
    ioRdata, hio, huart, hidx, ioRdataUart, hlsr, hr]
  rfl

/-- The values returned are the bytes popped. -/
theorem Waits.returned_eq (n : ℕ) :
    returned cfg stopBits s k inp n =
      (Sync.log (fun m => ((run cfg stopBits s inp m).rx k).popped
        ((run cfg stopBits s inp m).soc.uartRxReady k)) n).map (BitVec.setWidth 32) := by
  rw [← Sync.log_map, returned]
  congr 1
  funext m
  cases hr : (run cfg stopBits s inp m).soc.uartRxReady k with
  | true =>
    have hx := (hw.tied hs m).rx k hr
    rw [hw.rdata_of_rxHit hs hx hr, hx, hw.ready_of_rxHit hs hx, hr, RxUart.popped]
    cases he : ((run cfg stopBits s inp m).rx k).fifo.empty with
    | true => simp [RxUart.data, he]
    | false =>
      have hne : ((run cfg stopBits s inp m).rx k).data ≠ 0xFFFFFFFF#32 := fun h => by
        rw [RxUart.data_eq_ones, he] at h
        exact Bool.noConfusion h
      simp [hne]
      simp [RxUart.data, he]
  | false =>
    have hnot : (Soc.rxHit (inp m).bus k && readyAt cfg stopBits s inp m) = false := by
      cases hx : Soc.rxHit (inp m).bus k with
      | false => rfl
      | true =>
        rw [hw.ready_of_rxHit hs hx]
        exact hr
    rw [hnot, RxUart.popped]
    rfl

/-- The bytes pushed are those returned and those still in the buffer. -/
theorem Waits.pushed_eq (n : ℕ) :
    (pushed cfg stopBits s k inp n).map (BitVec.setWidth 32) =
      returned cfg stopBits s k inp n ++
        ((run cfg stopBits s inp n).rx k).fifo.toList.map (BitVec.setWidth 32) := by
  obtain ⟨hwf, hnil⟩ := hs.rxOk k
  have hlog := (RxUart.log_pushed (Q := fun m => (run cfg stopBits s inp m).rx k) (rx_succ k)
    hwf hnil n).2
  rw [hw.returned_eq hs n, ← List.map_append, ← hlog]
  rfl

/-- A read that returns all ones comes when every byte has been returned. -/
theorem Waits.returned_of_ones {n : ℕ} (hx : Soc.rxHit (inp n).bus k = true)
    (hr : readyAt cfg stopBits s inp n = true)
    (hones : (run cfg stopBits s inp n).cpuMemRdata cfg (inp n) = 0xFFFFFFFF#32) :
    returned cfg stopBits s k inp n =
      (pushed cfg stopBits s k inp n).map (BitVec.setWidth 32) := by
  rw [hw.ready_of_rxHit hs hx] at hr
  rw [hw.rdata_of_rxHit hs hx hr, RxUart.data_eq_ones, Fifo.empty_iff] at hones
  rw [hw.pushed_eq hs n, hones, List.map_nil, List.append_nil]

/-- If there is always another read, then every byte is returned in the end. -/
theorem Waits.exists_returned (hread : ∀ n, ∃ m, n ≤ m ∧ Soc.rxHit (inp m).bus k = true) (n : ℕ) :
    ∃ m, (pushed cfg stopBits s k inp n).map (BitVec.setWidth 32) <+:
      returned cfg stopBits s k inp m := by
  obtain ⟨hwf, hnil⟩ := hs.rxOk k
  have hpops : ∀ n, ∃ m, n ≤ m ∧ (run cfg stopBits s inp m).soc.uartRxReady k = true := by
    intro n
    obtain ⟨l, hnl, hx⟩ := hread n
    obtain ⟨m, hlm, hbus, hr⟩ := hw.read_answered hs hx
    rw [hw.ready_of_rxHit hs (by rw [hbus]; exact hx)] at hr
    exact ⟨m, by omega, hr⟩
  obtain ⟨m, -, hm⟩ := RxUart.exists_popped (Q := fun m => (run cfg stopBits s inp m).rx k)
    (rx_succ k) hwf hnil hpops n
  refine ⟨m, ?_⟩
  rw [hw.returned_eq hs m]
  exact hm.map _

end

/-- The bytes of UART `k` cross the bus exactly once and in order. -/
structure ExactlyOnce (cfg : SocConfig) (stopBits : ℕ) (s : UartSoc ipolicy dpolicy aw)
    (inp : ℕ → UartSocIn) (k : Fin 2) : Prop where
  /-- What the shifter has taken are the first of the bytes written. -/
  taken : ∀ n, taken cfg stopBits s k inp n <+: writes cfg stopBits s k inp n
  /-- What has been written is taken in the end. -/
  allTaken : ∀ n, ∃ m, writes cfg stopBits s k inp n <+: UartSoc.taken cfg stopBits s k inp m
  /-- A write is answered in the end, also when it waits for the buffer. -/
  writeAnswered : ∀ n, Soc.txHit (inp n).bus k = true →
    ∃ m, n ≤ m ∧ (inp m).bus = (inp n).bus ∧ readyAt cfg stopBits s inp m = true
  /-- The values returned are the first of the bytes pushed; the others are in the buffer. -/
  returned : ∀ n, (pushed cfg stopBits s k inp n).map (BitVec.setWidth 32) =
    returned cfg stopBits s k inp n ++
      ((run cfg stopBits s inp n).rx k).fifo.toList.map (BitVec.setWidth 32)
  /-- A read that finds nothing comes when all of them have been returned. -/
  allReturned : ∀ n, Soc.rxHit (inp n).bus k = true → readyAt cfg stopBits s inp n = true →
    (run cfg stopBits s inp n).cpuMemRdata cfg (inp n) = 0xFFFFFFFF#32 →
    UartSoc.returned cfg stopBits s k inp n =
      (pushed cfg stopBits s k inp n).map (BitVec.setWidth 32)
  /-- What has been pushed is returned in the end, if there is always another read. -/
  returnedAtLast : (∀ n, ∃ m, n ≤ m ∧ Soc.rxHit (inp m).bus k = true) →
    ∀ n, ∃ m, (pushed cfg stopBits s k inp n).map (BitVec.setWidth 32) <+:
      UartSoc.returned cfg stopBits s k inp m
  /-- A read is answered in the end. -/
  readAnswered : ∀ n, Soc.rxHit (inp n).bus k = true →
    ∃ m, n ≤ m ∧ (inp m).bus = (inp n).bus ∧ readyAt cfg stopBits s inp m = true

end UartSoc

/-- **Exactly once.**  In every run from reset under a master that holds its requests until they
are answered and then leaves the bus for a cycle, with any divisors and any signals on the line,
the bytes of both UARTs cross the bus exactly once and in order. -/
theorem uart_bus_exactly_once {iset iways dset dways aw : ℕ}
    {ipolicy : ReplacementPolicy iset iways} {dpolicy : ReplacementPolicy dset dways}
    {cfg : SocConfig} {stopBits : ℕ} {s : UartSoc ipolicy dpolicy aw} {inp : ℕ → UartSocIn}
    (hs : s.IsReset) (hw : UartSoc.Waits cfg stopBits s inp) (k : Fin 2) :
    UartSoc.ExactlyOnce cfg stopBits s inp k where
  taken := hw.taken_prefix hs
  allTaken := hw.exists_taken hs
  writeAnswered _ := hw.write_answered hs
  returned := hw.pushed_eq hs
  allReturned _ := hw.returned_of_ones hs
  returnedAtLast := hw.exists_returned hs
  readAnswered _ := hw.read_answered hs

/-- The first SoC after reset, with cleared memories. -/
def UartSoc.reset : UartSoc (lruFourWay 6) (lruFourWay 6) 4 where
  soc := Soc.reset
  tx _ := TxUart.resetState fun _ => 0
  rx _ := RxUart.resetState .first fun _ => 0
  lsrThre _ := true

theorem UartSoc.reset_isReset : UartSoc.reset.IsReset :=
  ⟨Soc.reset_isReset, fun _ => ⟨_, rfl⟩, fun _ => ⟨_, rfl⟩, fun _ => rfl⟩

/-- A write of `0x41` to the first UART, a read of it, and silence on the bus and the lines. -/
def writeAndRead (n : ℕ) : UartSocIn where
  bus := if n < 2 then ⟨true, 0x10000000#32, 1#4, 0x41#32, false⟩
    else if n = 3 ∨ n = 4 then ⟨true, 0x10000000#32, 0#4, 0#32, false⟩
    else ⟨false, 0#32, 0#4, 0#32, false⟩
  env := quietEnv
  div := 4#16
  uartRx _ := true
  bramRdata := 0
  spiNorMemData := 0
  memSdramRdata := 0
  deviceRdata := 0

theorem writeAndRead_idle {n : ℕ} (hn : 5 ≤ n) :
    (writeAndRead n).bus = ⟨false, 0#32, 0#4, 0#32, false⟩ := by
  have h2 : ¬ n < 2 := by omega
  have h3 : ¬ (n = 3 ∨ n = 4) := by omega
  simp [writeAndRead, h2, h3]

theorem writeAndRead_waits : UartSoc.Waits ulx3s 1 UartSoc.reset writeAndRead := by
  refine ⟨fun n => ?_, fun n => ?_, fun n => ?_⟩ <;> rcases Nat.lt_or_ge n 5 with hn | hn
  · have hready : ∀ n < 5, UartSoc.readyAt ulx3s 1 UartSoc.reset writeAndRead n =
        decide (n = 1 ∨ n = 4) := by
      decide +kernel
    rw [hready n hn]
    interval_cases n <;> exact ⟨by decide, by decide⟩
  · refine ⟨fun hv => ?_, fun hv => ?_⟩ <;>
    · rw [writeAndRead_idle hn] at hv
      exact Bool.noConfusion hv
  · interval_cases n <;> decide
  · rw [writeAndRead_idle hn]
    decide
  · interval_cases n <;> decide
  · rw [writeAndRead_idle hn]
    decide

/-- A byte written to the first UART, and a read that finds nothing. -/
theorem uart_bus_exactly_once_write_read :
    UartSoc.ExactlyOnce ulx3s 1 UartSoc.reset writeAndRead 0 ∧
      UartSoc.writes ulx3s 1 UartSoc.reset 0 writeAndRead 5 = [0x41#8] ∧
      UartSoc.taken ulx3s 1 UartSoc.reset 0 writeAndRead 5 = [0x41#8] ∧
      UartSoc.returned ulx3s 1 UartSoc.reset 0 writeAndRead 5 = [] :=
  ⟨uart_bus_exactly_once UartSoc.reset_isReset writeAndRead_waits 0, by decide +kernel,
    by decide +kernel, by decide +kernel⟩

end KianRiscV
