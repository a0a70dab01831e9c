import VoleZk.Bool.Block
import VoleZk.Lib.Runs
import VoleZk.Lib.Workers

/-!
# The Boolean engine

`ZKBoolProver` and `ZKBoolVerifier` run one program over authenticated bits in lockstep.  Exclusive
or and negation are local; a witness bit and an AND gate each take a COT and one masking bit from
the prover.  AND gates are buffered and checked `CHECK_SZ` at a time, with coefficients from the
digest of what has crossed the wire so far; a check draws 128 further COTs to mask its two blocks.

A state holds both parties' engines and the wires so far.  `SilentFerret`, the prefetch buffer and
the background pipe all serve one stream of COTs in order.  A loop that `run_parallel_` shares out
visits its indices in an order of its own; the two parties may have different numbers of workers.
`BoolIO` packs the bits into bytes and pads at flushes, which are at the same places on both sides,
so the transcript is kept as the sequence of bits and blocks.

## What is here

* `BoolConfig`, what the two parties share, and `BoolConfig.Valid`;
* `ZKBool`, one party's engine: inputs, AND gates one by one and in waves, the batch check,
  reveals;
* `BoolOp`, `BoolSession.step`, `BoolSession.finish` — **the two parties running a program**;
* `BoolPlain.step` — what the program computes.
-/

set_option autoImplicit false

namespace VoleZk

/-- What the prover sends. -/
inductive Msg where
  /-- `send_bit`. -/
  | bit (b : Bool)
  /-- `send_data` of a block. -/
  | data (b : Block)
  deriving DecidableEq

/-- What the two parties set up before the program starts, and the randomness of the run. -/
structure BoolConfig where
  /-- The block arithmetic of emp-tool. -/
  G : GfOps
  /-- The verifier's key. -/
  delta : Block
  /-- The blocks that `PRP(1)` yields for the public labels. -/
  prp : Block × Block
  /-- The prover's halves of the COTs, in the order they are drawn. -/
  cotPrv : ℕ → Block
  /-- The verifier's halves. -/
  cotVer : ℕ → Block
  /-- `CHECK_SZ`. -/
  checkSz : ℕ
  /-- `kFeedParMin`. -/
  kFeedParMin : ℕ
  /-- `n_threads_` of the prover. -/
  threadsPrv : ℕ
  /-- `n_threads_` of the verifier. -/
  threadsVer : ℕ
  /-- The order in which the prover's workers visit a loop of the given length. -/
  orderPrv : ℕ → List ℕ
  /-- The order in which the verifier's workers visit a loop of the given length. -/
  orderVer : ℕ → List ℕ
  /-- `io->io->get_digest()`, of what has crossed the wire. -/
  digest : List Msg → Block
  /-- The blocks of the PRG keyed with a seed. -/
  prg : Block → ℕ → Block

/-- The COTs are correlated under a key with its lowest place set, a batch has room for a gate, and
a shared loop visits every index once. -/
structure BoolConfig.Valid (C : BoolConfig) : Prop where
  /-- The key has its lowest place set. -/
  delta_lsb : lsb C.delta = true
  /-- The COTs are correlated. -/
  cot : ∀ i, BitAuth C.delta (C.cotPrv i) (C.cotVer i) (lsb (C.cotPrv i))
  /-- A batch has room for a gate. -/
  checkSz_pos : 0 < C.checkSz
  /-- The prover's workers visit every index once. -/
  orderPrv : ∀ n, (C.orderPrv n).Perm (List.range n)
  /-- The verifier's workers visit every index once. -/
  orderVer : ∀ n, (C.orderVer n).Perm (List.range n)

/-- A wire as the two parties hold it. -/
structure BitLabel where
  /-- The prover's half. -/
  prover : Block
  /-- The verifier's half. -/
  verifier : Block
  deriving DecidableEq

/-! ## Gates without communication -/

namespace BoolConfig

variable (C : BoolConfig)

/-- `pub_label` of the prover: label 1 has its lowest place set. -/
def pubLabelPrv (b : Bool) : Block := if b then clearLsb C.prp.2 ^^^ 1 else clearLsb C.prp.1

/-- `zdelta`. -/
def zdelta : Block := C.delta ^^^ 1

/-- `pub_label` of the verifier: `zdelta` goes into label 1. -/
def pubLabelVer (b : Bool) : Block :=
  if b then clearLsb C.prp.2 ^^^ C.zdelta else clearLsb C.prp.1

/-- `public_block`, both parties. -/
def publicBlock (b : Bool) : BitLabel := ⟨C.pubLabelPrv b, C.pubLabelVer b⟩

/-- `xor_block`, both parties. -/
def xorBlock (l r : BitLabel) : BitLabel := ⟨l.prover ^^^ r.prover, l.verifier ^^^ r.verifier⟩

/-- `not_block`, both parties. -/
def notBlock (l : BitLabel) : BitLabel := ⟨l.prover ^^^ 1, l.verifier ^^^ C.zdelta⟩

end BoolConfig

/-! ## One party's engine -/

/-- An entry of the gate buffers, `and_bits_` included. -/
structure GateSlot where
  /-- `andgate_left_buffer`. -/
  left : Block
  /-- `andgate_right_buffer`. -/
  right : Block
  /-- `andgate_out_buffer`. -/
  out : Block
  /-- `and_bits_`. -/
  bit : Bool

/-- The engine of one party. -/
structure ZKBool where
  /-- The COTs drawn so far. -/
  drawn : ℕ
  /-- `check_cnt`, the gates of the current batch. -/
  checkCnt : ℕ
  /-- The gate buffers. -/
  slots : ℕ → GateSlot
  /-- The blocks absorbed by `auth_hash`. -/
  hashed : List Block
  /-- What this party has sent or received. -/
  transcript : List Msg

namespace ZKBool

variable (C : BoolConfig)

/-- The constructor. -/
def init : ZKBool where
  drawn := 0
  checkCnt := 0
  slots := fun _ => ⟨0, 0, 0, false⟩
  hashed := []
  transcript := []

/-! ### Inputs -/

/-- `authenticated_bits_input` of the prover: the wires, and the masking bits it sends.  Short
feeds are a serial loop, long ones are shared out. -/
def authenticatedBitsInputSend (e : ZKBool) (input : List Bool) :
    ZKBool × List Block × List Bool :=
  let len := input.length
  let cells := Workers.forEach
    (fun i (cell : Block × Bool) =>
      (withLsb cell.1 (input.getD i false), lsb cell.1 ^^ input.getD i false))
    (if len ≤ C.kFeedParMin then List.range len else C.orderPrv len)
    (fun i => (C.cotPrv (e.drawn + i), false))
  let mask := (List.range len).map fun i => (cells i).2
  ({ e with drawn := e.drawn + len, transcript := e.transcript ++ mask.map Msg.bit },
    (List.range len).map fun i => (cells i).1, mask)

/-- `authenticated_bits_input` of the verifier, with the masking bits received. -/
def authenticatedBitsInputRecv (e : ZKBool) (mask : List Bool) : ZKBool × List Block :=
  let len := mask.length
  let auth := Workers.forEach
    (fun i (auth : Block) => clearLsb (xorDeltaIf C.delta auth (mask.getD i false)))
    (if len ≤ C.kFeedParMin then List.range len else C.orderVer len)
    (fun i => C.cotVer (e.drawn + i))
  ({ e with drawn := e.drawn + len, transcript := e.transcript ++ mask.map Msg.bit },
    (List.range len).map auth)

/-! ### AND gates -/

/-- The scalar `auth_compute_and` of the prover, past its head: the output wire and the masking
bit it sends. -/
def authComputeAndSend (e : ZKBool) (a b : Block) : ZKBool × Block × Bool :=
  let auth := C.cotPrv e.drawn
  let s := lsb a && lsb b
  let d := s ^^ lsb auth
  let auth := withLsb auth s
  ({ e with
      drawn := e.drawn + 1
      checkCnt := e.checkCnt + 1
      slots := Function.update e.slots e.checkCnt
        { e.slots e.checkCnt with left := a, right := b, out := auth }
      transcript := e.transcript ++ [Msg.bit d] }, auth, d)

/-- The scalar `auth_compute_and` of the verifier, past its head. -/
def authComputeAndRecv (e : ZKBool) (a b : Block) (d : Bool) : ZKBool × Block :=
  let auth := clearLsb (xorDeltaIf C.delta (C.cotVer e.drawn) d)
  ({ e with
      drawn := e.drawn + 1
      checkCnt := e.checkCnt + 1
      slots := Function.update e.slots e.checkCnt
        { e.slots e.checkCnt with left := a, right := b, out := auth }
      transcript := e.transcript ++ [Msg.bit d] }, auth)

/-- Gate `i` of a wave of the prover, in the slot it writes. -/
def waveGateSend (e : ZKBool) (ab : List (Block × Block)) (i : ℕ) : GateSlot :=
  let l := (ab.getD i (0, 0)).1
  let r := (ab.getD i (0, 0)).2
  let out := C.cotPrv (e.drawn + i)
  let s := lsb l && lsb r
  ⟨l, r, withLsb out s, s ^^ lsb out⟩

/-- Gate `i` of a wave of the verifier, in the slot that holds its masking bit. -/
def waveGateRecv (e : ZKBool) (ab : List (Block × Block)) (i : ℕ) (slot : GateSlot) : GateSlot :=
  { slot with
    left := (ab.getD i (0, 0)).1
    right := (ab.getD i (0, 0)).2
    out := clearLsb (xorDeltaIf C.delta (C.cotVer (e.drawn + i)) slot.bit) }

/-- One wave of the vectorized `auth_compute_and` of the prover: gates that fit in the current
batch. -/
def waveSend (e : ZKBool) (ab : List (Block × Block)) : ZKBool × List Block × List Bool :=
  let base := e.checkCnt
  let take := ab.length
  let slots := Workers.forEach (fun j _ => waveGateSend C e ab (j - base))
    ((C.orderPrv take).map (base + ·)) e.slots
  let bits := (List.range take).map fun i => (slots (base + i)).bit
  ({ e with
      drawn := e.drawn + take
      checkCnt := e.checkCnt + take
      slots := slots
      transcript := e.transcript ++ bits.map Msg.bit },
    (List.range take).map fun i => (slots (base + i)).out, bits)

/-- One wave of the vectorized `auth_compute_and` of the verifier: the masking bits are received
before the gates are shared out. -/
def waveRecv (e : ZKBool) (ab : List (Block × Block)) (bits : List Bool) : ZKBool × List Block :=
  let base := e.checkCnt
  let take := ab.length
  let received := Workers.forEach
    (fun j (slot : GateSlot) => { slot with bit := bits.getD (j - base) false })
    ((List.range take).map (base + ·)) e.slots
  let slots := Workers.forEach (fun j => waveGateRecv C e ab (j - base))
    ((C.orderVer take).map (base + ·)) received
  ({ e with
      drawn := e.drawn + take
      checkCnt := e.checkCnt + take
      slots := slots
      transcript := e.transcript ++ bits.map Msg.bit },
    (List.range take).map fun i => (slots (base + i)).out)

/-! ### The batch check -/

/-- The inner product of `taskN` coefficients and terms from `start` on, unreduced, 1024 at a
time. -/
def innPrdtChunks (chi term : ℕ → Block) (start taskN : ℕ) : Block × Block :=
  (List.range ((taskN + 1023) / 1024)).foldl (fun acc c =>
    let base := c * 1024
    let m := if taskN - base < 1024 then taskN - base else 1024
    let p := C.G.innPrdtSumNoRed m (fun i => chi (start + base + i))
      fun i => term (start + base + i)
    (acc.1 ^^^ p.1, acc.2 ^^^ p.2)) (0, 0)

/-- The reduced inner product of a slice. -/
def sliceSum (chi term : ℕ → Block) (start taskN : ℕ) : Block :=
  if taskN = 0 then 0
  else
    let acc := innPrdtChunks C chi term start taskN
    C.G.reduce acc.1 acc.2

/-- `A0`, the product of a gate's inputs on the prover's side. -/
def termA0 (e : ZKBool) (j : ℕ) : Block := C.G.gfmul (e.slots j).left (e.slots j).right

/-- `A1`, the linear term of a gate on the prover's side. -/
def termA1 (e : ZKBool) (j : ℕ) : Block :=
  (if lsb (e.slots j).left then (e.slots j).right else 0) ^^^
    (if lsb (e.slots j).right then (e.slots j).left else 0) ^^^ (e.slots j).out

/-- `B`, the term of a gate on the verifier's side. -/
def termB (e : ZKBool) (j : ℕ) : Block :=
  C.G.gfmul (e.slots j).left (e.slots j).right ^^^ C.G.gfmul (e.slots j).out C.delta

/-- The partial sums of the workers of `andgate_correctness_check_manage`, combined. -/
def checkSum (threads : ℕ) (e : ZKBool) (chi term : ℕ → Block) : Block :=
  ((Workers.split threads e.checkCnt).map fun r => sliceSum C chi term r.1 r.2).foldl
    (fun agg s => agg ^^^ s) 0

/-- `ch_bits[i]`: the lowest places of 64 blocks. -/
def chWord (opeData : ℕ → Block) (i : ℕ) : ℕ :=
  ((List.range 64).map fun j => lsb (opeData (64 * i + j))).foldr
    (fun bit ch => 2 * ch + bit.toNat) 0

/-- `makeBlock(ch_bits[1], ch_bits[0])`. -/
def chBlock (opeData : ℕ → Block) : Block :=
  BitVec.ofNat 64 (chWord opeData 1) ++ BitVec.ofNat 64 (chWord opeData 0)

/-- `andgate_correctness_check_manage` of the prover: the two blocks it sends. -/
def checkManageSend (e : ZKBool) : ZKBool × Block × Block :=
  let chi := C.prg (C.digest e.transcript)
  let opeData := fun i => C.cotPrv (e.drawn + i)
  let A0 := C.G.packing opeData ^^^ checkSum C C.threadsPrv e chi (termA0 C e)
  let A1 := chBlock opeData ^^^ checkSum C C.threadsPrv e chi (termA1 e)
  ({ e with
      drawn := e.drawn + 128
      transcript := e.transcript ++ [Msg.data A0, Msg.data A1] }, A0, A1)

/-- `andgate_correctness_check_manage` of the verifier, on the blocks received. -/
def checkManageRecv (e : ZKBool) (A : Block × Block) : Option ZKBool :=
  let chi := C.prg (C.digest e.transcript)
  let opeData := fun i => C.cotVer (e.drawn + i)
  let B := C.G.packing opeData ^^^ checkSum C C.threadsVer e chi (termB C e)
  let W := C.G.gfmul A.2 C.delta ^^^ A.1
  if W = B then
    some { e with
      drawn := e.drawn + 128
      transcript := e.transcript ++ [Msg.data A.1, Msg.data A.2] }
  else none

/-! ### Outputs -/

/-- `verify_output` of the prover: the bits it sends. -/
def verifyOutputSend (e : ZKBool) (output : List Block) : ZKBool × List Bool :=
  let b := output.map lsb
  ({ e with hashed := e.hashed ++ output, transcript := e.transcript ++ b.map Msg.bit }, b)

/-- `verify_output` of the verifier, on the bits received. -/
def verifyOutputRecv (e : ZKBool) (output : List Block) (b : List Bool) : ZKBool :=
  { e with
    hashed := e.hashed ++ List.zipWith (fun o b => xorDeltaIf C.delta o b) output b
    transcript := e.transcript ++ b.map Msg.bit }

end ZKBool

/-! ## Both parties -/

/-- The parties, and everyone. -/
inductive Recipient where
  | alice
  | bob
  | pub
  deriving DecidableEq

/-- An operation of a program.  Wires are named by their position. -/
inductive BoolOp where
  /-- `feed_bits`. -/
  | feedBits (fromParty : Recipient) (input : List Bool)
  /-- `public_block`. -/
  | publicBlock (b : Bool)
  /-- `xor_block`. -/
  | xorBlock (i j : ℕ)
  /-- `not_block`. -/
  | notBlock (i : ℕ)
  /-- The scalar `and_block`. -/
  | andBlock (i j : ℕ)
  /-- The vectorized `and_block`. -/
  | andBlocks (ij : List (ℕ × ℕ))
  /-- `reveal_bits`. -/
  | revealBits (toParty : Recipient) (is : List ℕ)
  deriving DecidableEq

/-- The two parties in the middle of a program. -/
structure BoolSession where
  /-- The prover's engine. -/
  prover : ZKBool
  /-- The verifier's engine. -/
  verifier : ZKBool
  /-- The wires so far. -/
  wires : List BitLabel
  /-- What `reveal_bits` returned to the prover. -/
  outPrv : List (List Bool)
  /-- What `reveal_bits` returned to the verifier. -/
  outVer : List (List Bool)

namespace BoolSession

open ZKBool

variable (C : BoolConfig)

/-- Before the first operation. -/
def init : BoolSession where
  prover := ZKBool.init
  verifier := ZKBool.init
  wires := []
  outPrv := []
  outVer := []

/-- The wires at the given positions. -/
def labels (s : BoolSession) (is : List ℕ) : Option (List BitLabel) := is.mapM fun i => s.wires[i]?

/-- Append wires. -/
def push (s : BoolSession) (ls : List BitLabel) : BoolSession := { s with wires := s.wires ++ ls }

/-- `authenticated_bits_input`, both parties. -/
def authenticatedBitsInput (s : BoolSession) (input : List Bool) : BoolSession :=
  let (p, Ms, mask) := authenticatedBitsInputSend C s.prover input
  let (v, Ks) := authenticatedBitsInputRecv C s.verifier mask
  { s with prover := p, verifier := v }.push (List.zipWith BitLabel.mk Ms Ks)

/-- `andgate_correctness_check_manage`, both parties. -/
def checkManage (s : BoolSession) : Option BoolSession :=
  let (p, A) := checkManageSend C s.prover
  (checkManageRecv C s.verifier A).map fun v => { s with prover := p, verifier := v }

/-- The head of an AND gate: a full batch is checked, and a new one started.  Each party goes by
its own counter; if they differed, one would wait for the other. -/
def ready (s : BoolSession) : Option BoolSession :=
  if s.prover.checkCnt = C.checkSz ∧ s.verifier.checkCnt = C.checkSz then
    (checkManage C s).map fun s =>
      { s with
        prover := { s.prover with checkCnt := 0 }
        verifier := { s.verifier with checkCnt := 0 } }
  else if s.prover.checkCnt = C.checkSz ∨ s.verifier.checkCnt = C.checkSz then none
  else some s

/-- The scalar AND, past its head. -/
def andSlot (s : BoolSession) (a b : BitLabel) : BoolSession × BitLabel :=
  let (p, M, d) := authComputeAndSend C s.prover a.prover b.prover
  let (v, K) := authComputeAndRecv C s.verifier a.verifier b.verifier d
  ({ s with prover := p, verifier := v }, ⟨M, K⟩)

/-- The scalar `and_block`. -/
def andBlock (s : BoolSession) (a b : BitLabel) : Option (BoolSession × BitLabel) :=
  (ready C s).map fun s => andSlot C s a b

/-- One wave of the vectorized AND. -/
def wave (s : BoolSession) (ab : List (BitLabel × BitLabel)) : BoolSession × List BitLabel :=
  let (p, Ms, bits) := waveSend C s.prover (ab.map fun x => (x.1.prover, x.2.prover))
  let (v, Ks) := waveRecv C s.verifier (ab.map fun x => (x.1.verifier, x.2.verifier)) bits
  ({ s with prover := p, verifier := v }, List.zipWith BitLabel.mk Ms Ks)

/-- The vectorized `and_block`, wave after wave.  If the parties' waves differed in length, or a
wave were empty, they would not go on. -/
def andBlocks (s : BoolSession) (ab : List (BitLabel × BitLabel)) :
    Option (BoolSession × List BitLabel) :=
  if _h : ab = [] then some (s, [])
  else
    (ready C s).bind fun s =>
      let take := min (C.checkSz - s.prover.checkCnt) ab.length
      if _h : take = 0 ∨ take ≠ min (C.checkSz - s.verifier.checkCnt) ab.length then none
      else
        let (s, outs) := wave C s (ab.take take)
        (andBlocks s (ab.drop take)).map fun (s, rest) => (s, outs ++ rest)
termination_by ab.length
decreasing_by
  have : 0 < ab.length := List.length_pos_of_ne_nil ‹_›
  simp only [List.length_drop]
  omega

/-- `verify_output`, both parties: the prover's bits, sent to the verifier. -/
def verifyOutput (s : BoolSession) (ls : List BitLabel) : BoolSession × List Bool :=
  let (p, b) := verifyOutputSend s.prover (ls.map BitLabel.prover)
  let v := verifyOutputRecv C s.verifier (ls.map BitLabel.verifier) b
  ({ s with prover := p, verifier := v }, b)

/-- One operation, run by both parties; `none` when an error is raised or a wire does not exist. -/
def step (s : BoolSession) : BoolOp → Option BoolSession
  | .feedBits .alice input => some (authenticatedBitsInput C s input)
  | .feedBits .pub input => some (s.push (input.map C.publicBlock))
  | .feedBits .bob _ => none
  | .publicBlock b => some (s.push [C.publicBlock b])
  | .xorBlock i j => (s.labels [i, j]).bind fun
    | [a, b] => some (s.push [BoolConfig.xorBlock a b])
    | _ => none
  | .notBlock i => (s.labels [i]).bind fun
    | [a] => some (s.push [C.notBlock a])
    | _ => none
  | .andBlock i j => (s.labels [i, j]).bind fun
    | [a, b] => (andBlock C s a b).map fun (s, c) => s.push [c]
    | _ => none
  | .andBlocks ij => (s.labels (ij.map Prod.fst)).bind fun as =>
    (s.labels (ij.map Prod.snd)).bind fun bs =>
      (andBlocks C s (as.zip bs)).map fun (s, cs) => s.push cs
  | .revealBits .alice is => (s.labels is).map fun ls =>
    { s with outPrv := s.outPrv ++ [ls.map fun l => lsb l.prover] }
  | .revealBits _ is => (s.labels is).map fun ls =>
    let (s, b) := verifyOutput C s ls
    { s with outPrv := s.outPrv ++ [b], outVer := s.outVer ++ [b] }

/-- The destructors, up to the digests: the last batch is checked if there is one. -/
def finish (s : BoolSession) : Option BoolSession :=
  if s.prover.checkCnt ≠ 0 ∧ s.verifier.checkCnt ≠ 0 then checkManage C s
  else if s.prover.checkCnt ≠ 0 ∨ s.verifier.checkCnt ≠ 0 then none
  else some s

/-- The closing comparison of the verifier: the digest it receives against its own. -/
def finalizeAccepts {D : Type*} [DecidableEq D] (authHash : List Block → D) (s : BoolSession) :
    Bool :=
  authHash s.verifier.hashed == authHash s.prover.hashed

end BoolSession

/-! ## What a program computes -/

/-- The plain state of a program. -/
structure BoolPlain where
  /-- The values of the wires. -/
  vals : List Bool
  /-- What the reveals return to the prover. -/
  outPrv : List (List Bool)
  /-- What the reveals return to the verifier. -/
  outVer : List (List Bool)

namespace BoolPlain

/-- The values at the given positions. -/
def values (p : BoolPlain) (is : List ℕ) : Option (List Bool) := is.mapM fun i => p.vals[i]?

/-- Append values. -/
def push (p : BoolPlain) (vs : List Bool) : BoolPlain := { p with vals := p.vals ++ vs }

/-- One operation on plain bits. -/
def step (p : BoolPlain) : BoolOp → Option BoolPlain
  | .feedBits .alice input => some (p.push input)
  | .feedBits .pub input => some (p.push input)
  | .feedBits .bob _ => none
  | .publicBlock b => some (p.push [b])
  | .xorBlock i j => (p.values [i, j]).bind fun
    | [a, b] => some (p.push [a ^^ b])
    | _ => none
  | .notBlock i => (p.values [i]).bind fun
    | [a] => some (p.push [!a])
    | _ => none
  | .andBlock i j => (p.values [i, j]).bind fun
    | [a, b] => some (p.push [a && b])
    | _ => none
  | .andBlocks ij => (p.values (ij.map Prod.fst)).bind fun as =>
    (p.values (ij.map Prod.snd)).bind fun bs =>
      some (p.push ((as.zip bs).map fun x => x.1 && x.2))
  | .revealBits .alice is => (p.values is).map fun vs => { p with outPrv := p.outPrv ++ [vs] }
  | .revealBits _ is => (p.values is).map fun vs =>
    { p with outPrv := p.outPrv ++ [vs], outVer := p.outVer ++ [vs] }

/-- Before the first operation. -/
def init : BoolPlain := ⟨[], [], []⟩

end BoolPlain

end VoleZk
