import Mathlib.Data.UInt
import Xhive.Support.Dialogue

/-!
# The I2C master of the C2

The transfers are programs in dialogue with the registers.  A status read
carries the place in the source where it is made, which the source does not
have: the register is the same.
-/

namespace Xhive.C2

open Xhive.Support

/-- `c2_status_t`. -/
inductive Status where
  | ok
  | errorInvalidArgument
  | errorTimeout
  | errorBusy
  | errorNack
  | errorArbitration
  | errorUnsupported
  | errorNotInitialized
  | errorIo
  deriving DecidableEq, Repr

namespace I2c

/-- Where the program reads the status. -/
inductive Place where
  | begin
  /-- Before a command is written. -/
  | check (command : UInt32)
  | completion
  /-- After an interrupt is acknowledged, where the call goes on or succeeds. -/
  | clearing
  | busIdle
  /-- Where the call has failed. -/
  | recovery
  deriving DecidableEq, Repr

inductive Register where
  | ctrl
  | txr
  | rxr
  | cmd
  | sr (place : Place)
  deriving DecidableEq, Repr

abbrev Port := Dialogue Register UInt32

abbrev Trace := List (Event Register UInt32)

def ctrlEn : UInt32 := 0x80

def cmdIack : UInt32 := 0x01
def cmdAck : UInt32 := 0x08
def cmdWr : UInt32 := 0x10
def cmdRd : UInt32 := 0x20
def cmdSto : UInt32 := 0x40
def cmdSta : UInt32 := 0x80

def statusIf : UInt32 := 0x01
def statusTip : UInt32 := 0x02
def statusAl : UInt32 := 0x20
def statusBsy : UInt32 := 0x40
def statusRxk : UInt32 := 0x80

/-- The test `(word & mask) != 0U`. -/
def has (word mask : UInt32) : Bool :=
  word &&& mask != 0

def regsValid (regs : ℕ) : Bool :=
  regs != 0 && regs &&& 3 == 0

def readStatus (place : Place) : Port UInt32 :=
  .get (.sr place)

/-- The polls of `clearIf`. -/
def awaitClear (place : Place) : ℕ → Port Status
  | 0 => pure .errorTimeout
  | poll + 1 => do
      let status ← readStatus place
      if has status statusIf then awaitClear place poll else pure .ok

def clearIf (place : Place) (status : UInt32) (pollLimit : ℕ) : Port Status :=
  if has status statusIf = false then pure .ok
  else if has status statusTip then pure .errorBusy
  else do
    Dialogue.put .cmd cmdIack
    awaitClear place pollLimit

/-- Clears an interrupt that is pending outside a transfer, whatever comes of it. -/
def clearPending (status : UInt32) (pollLimit : ℕ) : Port Unit :=
  if has status statusIf && !has status statusTip then do
    let _ ← clearIf .recovery status pollLimit
    pure ()
  else pure ()

/-- The polls of `issueCommand`, with `*completion_status`. -/
def awaitCompletion (checkNack : Bool) : ℕ → Port (Status × Option UInt32)
  | 0 => pure (.errorTimeout, none)
  | poll + 1 => do
      let status ← readStatus .completion
      if has status statusAl then pure (.errorArbitration, none)
      else if has status statusIf then
        if checkNack && has status statusRxk then pure (.errorNack, some status)
        else pure (.ok, some status)
      else awaitCompletion checkNack poll

def issueCommand (command : UInt32) (checkNack : Bool) (pollLimit : ℕ) :
    Port (Status × Option UInt32) := do
  let status ← readStatus (.check command)
  if has status statusTip then pure (.errorBusy, none)
  else if has status statusAl && !has command cmdSta then pure (.errorArbitration, none)
  else do
    let result ← clearIf .clearing status pollLimit
    if result ≠ .ok then pure (result, none)
    else do
      Dialogue.put .cmd command
      awaitCompletion checkNack pollLimit

/-- The polls of `stop` for an idle bus: whether arbitration is lost, and the
last status. -/
def awaitIdle : ℕ → UInt32 → Port (Bool × UInt32)
  | 0, status => pure (false, status)
  | poll + 1, _ => do
      let status ← readStatus .busIdle
      if has status statusAl then pure (true, status)
      else if has status statusBsy then awaitIdle poll status
      else pure (false, status)

/-- What `stop` does after its command: it waits for an idle bus and clears the
interrupt, from the status that completes the command.  The place is that of the
last clear, which decides the result. -/
def awaitStopped (place : Place) (status : UInt32) (pollLimit : ℕ) : Port Status :=
  if has status statusBsy then do
    let (lost, status) ← awaitIdle pollLimit status
    if lost then do
      clearPending status pollLimit
      pure .errorArbitration
    else if has status statusBsy then do
      let _ ← clearIf .recovery status pollLimit
      pure .errorTimeout
    else clearIf place status pollLimit
  else clearIf place status pollLimit

def stop (place : Place) (pollLimit : ℕ) : Port Status := do
  let (result, completion) ← issueCommand cmdSto false pollLimit
  if result ≠ .ok then do
    let status ← readStatus .recovery
    clearPending status pollLimit
    pure result
  else awaitStopped place (completion.getD 0) pollLimit

/-- The polls of `cleanupFailure` for the end of the command in progress:
whether arbitration is lost, and the last status. -/
def awaitTransfer : ℕ → UInt32 → Port (Bool × UInt32)
  | 0, status => pure (false, status)
  | poll + 1, status =>
      if has status statusTip then do
        let status ← readStatus .recovery
        if has status statusAl then pure (true, status) else awaitTransfer poll status
      else pure (false, status)

def cleanupFailure (failure : Status) (pollLimit : ℕ) : Port Unit := do
  let status ← readStatus .recovery
  if failure = .errorArbitration || has status statusAl then clearPending status pollLimit
  else do
    let (lost, status) ← awaitTransfer pollLimit status
    if lost then clearPending status pollLimit
    else if has status statusTip = false then do
      let _ ← stop .recovery pollLimit
      pure ()
    else pure ()

def begin : Port Status := do
  let control ← Dialogue.get .ctrl
  if has control ctrlEn = false then pure .errorNotInitialized
  else do
    let status ← readStatus .begin
    if has status (statusTip ||| statusBsy) then pure .errorBusy else pure .ok

def sendByte (byte : UInt8) (command : UInt32) (pollLimit : ℕ) : Port Status := do
  Dialogue.put .txr byte.toUInt32
  let (result, _) ← issueCommand command true pollLimit
  pure result

/-- The result, and the byte that is stored. -/
def receiveByte (acknowledge : Bool) (pollLimit : ℕ) : Port (Status × List UInt8) := do
  let command := if acknowledge then cmdRd ||| cmdAck else cmdRd
  let (result, _) ← issueCommand command false pollLimit
  if result = .ok then do
    let value ← Dialogue.get .rxr
    pure (result, [value.toUInt8])
  else pure (result, [])

/-- The loop that sends the data. -/
def sendBytes (pollLimit : ℕ) : Status → List UInt8 → Port Status
  | result, [] => pure result
  | result, byte :: data =>
      if result = .ok then do
        let result ← sendByte byte cmdWr pollLimit
        sendBytes pollLimit result data
      else pure result

/-- The loop that receives the data: the bytes left, and what is stored. -/
def receiveBytes (pollLimit : ℕ) : Status → ℕ → Port (Status × List UInt8)
  | result, 0 => pure (result, [])
  | result, left + 1 =>
      if result = .ok then do
        let (result, byte) ← receiveByte (left != 0) pollLimit
        let (result, data) ← receiveBytes pollLimit result left
        pure (result, byte ++ data)
      else pure (result, [])

/-- How each transfer ends. -/
def finish (result : Status) (pollLimit : ℕ) : Port Status :=
  if result = .ok then stop .clearing pollLimit
  else do
    cleanupFailure result pollLimit
    pure result

def writeAddress (address : UInt8) : UInt8 :=
  address <<< 1

def readAddress (address : UInt8) : UInt8 :=
  address <<< 1 ||| 1

/-- A buffer is `none` where the source has a null pointer. -/
def masterWrite (regs : ℕ) (address : UInt8) (data : Option (List UInt8)) (pollLimit : ℕ) :
    Port Status :=
  let data' := data.getD []
  if regsValid regs = false ∨ 0x7F < address ∨ data = none ∨ data'.length = 0 ∨ pollLimit = 0 then
    pure .errorInvalidArgument
  else do
    let result ← begin
    if result ≠ .ok then pure result
    else do
      let result ← sendByte (writeAddress address) (cmdSta ||| cmdWr) pollLimit
      let result ← sendBytes pollLimit result data'
      finish result pollLimit

/-- The result, and what is stored of the `length` bytes of the buffer. -/
def masterRead (regs : ℕ) (address : UInt8) (hasData : Bool) (length pollLimit : ℕ) :
    Port (Status × List UInt8) :=
  if regsValid regs = false ∨ 0x7F < address ∨ hasData = false ∨ length = 0 ∨ pollLimit = 0 then
    pure (.errorInvalidArgument, [])
  else do
    let result ← begin
    if result ≠ .ok then pure (result, [])
    else do
      let result ← sendByte (readAddress address) (cmdSta ||| cmdWr) pollLimit
      let (result, data) ← receiveBytes pollLimit result length
      let result ← finish result pollLimit
      pure (result, data)

/-- The repeated start of `masterWriteRead`. -/
def restart (result : Status) (address : UInt8) (pollLimit : ℕ) : Port Status :=
  if result = .ok then sendByte (readAddress address) (cmdSta ||| cmdWr) pollLimit
  else pure result

def masterWriteRead (regs : ℕ) (address : UInt8) (writeData : Option (List UInt8))
    (hasReadData : Bool) (readLength pollLimit : ℕ) : Port (Status × List UInt8) :=
  let data := writeData.getD []
  if regsValid regs = false ∨ 0x7F < address ∨ writeData = none ∨ data.length = 0 ∨
      hasReadData = false ∨ readLength = 0 ∨ pollLimit = 0 then
    pure (.errorInvalidArgument, [])
  else do
    let result ← begin
    if result ≠ .ok then pure (result, [])
    else do
      let result ← sendByte (writeAddress address) (cmdSta ||| cmdWr) pollLimit
      let result ← sendBytes pollLimit result data
      let result ← restart result address pollLimit
      let (result, data) ← receiveBytes pollLimit result readLength
      let result ← finish result pollLimit
      pure (result, data)

end I2c

end Xhive.C2
