import Rv8.Asm.Meta
import Rv8.Asm.Operands
/-!
# Instruction formats

The decoded record of `codec.h`, the decoders of `decode.h`, the encoders of
`encode.h` and the two dispatchers of `switch.h` that choose among them by the
codec of the opcode. An encoder gives `none` where one of its asserts fails.
-/

namespace Rv8.Asm

structure Decode where
  imm : Int := 0
  rd : Nat := 0
  rs1 : Nat := 0
  rs2 : Nat := 0
  rs3 : Nat := 0
  op : RvOp := .illegal
  codec : RvCodec := .illegal
  rm : Nat := 0
  aq : Nat := 0
  rl : Nat := 0
  pred : Nat := 0
  succ : Nat := 0
deriving DecidableEq

@[simp] def rvIregZero : Nat := 0
@[simp] def rvIregRa : Nat := 1
@[simp] def rvIregSp : Nat := 2

/-! The fields of the record have fixed widths; what is assigned to them is truncated. -/

def s32 (x : Int) : Int := Int.bmod x (2 ^ 32)
def bitField (n : Nat) (x : Int) : Nat := (x % 2 ^ n).toNat
def u8 (x : Int) : Nat := bitField 8 x

/-! ## Decoders -/

@[simp] def decodeNone (dec : Decode) (_inst : Nat) : Decode :=
  { dec with rd := rvIregZero, rs1 := rvIregZero, rs2 := rvIregZero, imm := 0 }

@[simp] def decodeCiNone (dec : Decode) (_inst : Nat) : Decode :=
  { dec with rd := rvIregZero, rs1 := rvIregZero, rs2 := rvIregZero, imm := 0 }

@[simp] def decodeCr (dec : Decode) (inst : Nat) : Decode :=
  { dec with rd := u8 (operandCrs1rd.decode inst), rs1 := u8 (operandCrs1rd.decode inst),
             rs2 := u8 (operandCrs2.decode inst), imm := 0 }

@[simp] def decodeCrMv (dec : Decode) (inst : Nat) : Decode :=
  { dec with rd := u8 (operandCrd.decode inst), rs1 := u8 (operandCrs2.decode inst), rs2 := rvIregZero, imm := 0 }

@[simp] def decodeCrJalr (dec : Decode) (inst : Nat) : Decode :=
  { dec with rd := rvIregRa, rs1 := u8 (operandCrs1.decode inst), rs2 := rvIregZero, imm := 0 }

@[simp] def decodeCrJr (dec : Decode) (inst : Nat) : Decode :=
  { dec with rd := rvIregZero, rs1 := u8 (operandCrs1.decode inst), rs2 := rvIregZero, imm := 0 }

@[simp] def decodeCi (dec : Decode) (inst : Nat) : Decode :=
  { dec with rd := u8 (operandCrs1rd.decode inst), rs1 := u8 (operandCrs1rd.decode inst), rs2 := rvIregZero,
             imm := s32 (operandCimmi.decode inst) }

@[simp] def decodeCiSh5 (dec : Decode) (inst : Nat) : Decode :=
  { dec with rd := u8 (operandCrs1rd.decode inst), rs1 := u8 (operandCrs1rd.decode inst), rs2 := rvIregZero,
             imm := s32 (operandCimmsh5.decode inst) }

@[simp] def decodeCiSh6 (dec : Decode) (inst : Nat) : Decode :=
  { dec with rd := u8 (operandCrs1rd.decode inst), rs1 := u8 (operandCrs1rd.decode inst), rs2 := rvIregZero,
             imm := s32 (operandCimmsh6.decode inst) }

@[simp] def decodeCiLi (dec : Decode) (inst : Nat) : Decode :=
  { dec with rd := u8 (operandCrd.decode inst), rs1 := rvIregZero, rs2 := rvIregZero,
             imm := s32 (operandCimmi.decode inst) }

@[simp] def decodeCiLui (dec : Decode) (inst : Nat) : Decode :=
  { dec with rd := u8 (operandCrd.decode inst), rs1 := rvIregZero, rs2 := rvIregZero,
             imm := s32 (operandCimmui.decode inst) }

@[simp] def decodeCiLwsp (dec : Decode) (inst : Nat) : Decode :=
  { dec with rd := u8 (operandCrd.decode inst), rs1 := rvIregSp, rs2 := rvIregZero,
             imm := s32 (operandCimmlwsp.decode inst) }

@[simp] def decodeCiLdsp (dec : Decode) (inst : Nat) : Decode :=
  { dec with rd := u8 (operandCrd.decode inst), rs1 := rvIregSp, rs2 := rvIregZero,
             imm := s32 (operandCimmldsp.decode inst) }

@[simp] def decodeCiLqsp (dec : Decode) (inst : Nat) : Decode :=
  { dec with rd := u8 (operandCrd.decode inst), rs1 := rvIregSp, rs2 := rvIregZero,
             imm := s32 (operandCimmlqsp.decode inst) }

@[simp] def decodeCi16sp (dec : Decode) (inst : Nat) : Decode :=
  { dec with rd := rvIregSp, rs1 := rvIregSp, rs2 := rvIregZero, imm := s32 (operandCimm16sp.decode inst) }

@[simp] def decodeCssSwsp (dec : Decode) (inst : Nat) : Decode :=
  { dec with rd := rvIregZero, rs1 := rvIregSp, rs2 := u8 (operandCrs2.decode inst),
             imm := s32 (operandCimmswsp.decode inst) }

@[simp] def decodeCssSdsp (dec : Decode) (inst : Nat) : Decode :=
  { dec with rd := rvIregZero, rs1 := rvIregSp, rs2 := u8 (operandCrs2.decode inst),
             imm := s32 (operandCimmsdsp.decode inst) }

@[simp] def decodeCssSqsp (dec : Decode) (inst : Nat) : Decode :=
  { dec with rd := rvIregZero, rs1 := rvIregSp, rs2 := u8 (operandCrs2.decode inst),
             imm := s32 (operandCimmsqsp.decode inst) }

@[simp] def decodeCiw4spn (dec : Decode) (inst : Nat) : Decode :=
  { dec with rd := u8 (operandCrdq.decode inst + 8), rs1 := rvIregSp, rs2 := rvIregZero,
             imm := s32 (operandCimm4spn.decode inst) }

@[simp] def decodeClLw (dec : Decode) (inst : Nat) : Decode :=
  { dec with rd := u8 (operandCrdq.decode inst + 8), rs1 := u8 (operandCrs1q.decode inst + 8), rs2 := rvIregZero,
             imm := s32 (operandCimmw.decode inst) }

@[simp] def decodeClLd (dec : Decode) (inst : Nat) : Decode :=
  { dec with rd := u8 (operandCrdq.decode inst + 8), rs1 := u8 (operandCrs1q.decode inst + 8), rs2 := rvIregZero,
             imm := s32 (operandCimmd.decode inst) }

@[simp] def decodeClLq (dec : Decode) (inst : Nat) : Decode :=
  { dec with rd := u8 (operandCrdq.decode inst + 8), rs1 := u8 (operandCrs1q.decode inst + 8), rs2 := rvIregZero,
             imm := s32 (operandCimmq.decode inst) }

@[simp] def decodeCs (dec : Decode) (inst : Nat) : Decode :=
  { dec with rd := u8 (operandCrs1rdq.decode inst + 8), rs1 := u8 (operandCrs1rdq.decode inst + 8),
             rs2 := u8 (operandCrs2q.decode inst + 8), imm := 0 }

@[simp] def decodeCsSw (dec : Decode) (inst : Nat) : Decode :=
  { dec with rd := rvIregZero, rs1 := u8 (operandCrs1q.decode inst + 8),
             rs2 := u8 (operandCrs2q.decode inst + 8), imm := s32 (operandCimmw.decode inst) }

@[simp] def decodeCsSd (dec : Decode) (inst : Nat) : Decode :=
  { dec with rd := rvIregZero, rs1 := u8 (operandCrs1q.decode inst + 8),
             rs2 := u8 (operandCrs2q.decode inst + 8), imm := s32 (operandCimmd.decode inst) }

@[simp] def decodeCsSq (dec : Decode) (inst : Nat) : Decode :=
  { dec with rd := rvIregZero, rs1 := u8 (operandCrs1q.decode inst + 8),
             rs2 := u8 (operandCrs2q.decode inst + 8), imm := s32 (operandCimmq.decode inst) }

@[simp] def decodeCb (dec : Decode) (inst : Nat) : Decode :=
  { dec with rd := rvIregZero, rs1 := u8 (operandCrs1q.decode inst + 8), rs2 := rvIregZero,
             imm := s32 (operandCimmb.decode inst) }

@[simp] def decodeCbImm (dec : Decode) (inst : Nat) : Decode :=
  { dec with rd := u8 (operandCrs1rdq.decode inst + 8), rs1 := u8 (operandCrs1rdq.decode inst + 8),
             rs2 := rvIregZero, imm := s32 (operandCimmi.decode inst) }

@[simp] def decodeCbSh5 (dec : Decode) (inst : Nat) : Decode :=
  { dec with rd := u8 (operandCrs1rdq.decode inst + 8), rs1 := u8 (operandCrs1rdq.decode inst + 8),
             rs2 := rvIregZero, imm := s32 (operandCimmsh5.decode inst) }

@[simp] def decodeCbSh6 (dec : Decode) (inst : Nat) : Decode :=
  { dec with rd := u8 (operandCrs1rdq.decode inst + 8), rs1 := u8 (operandCrs1rdq.decode inst + 8),
             rs2 := rvIregZero, imm := s32 (operandCimmsh6.decode inst) }

@[simp] def decodeCj (dec : Decode) (inst : Nat) : Decode :=
  { dec with rd := rvIregZero, rs1 := rvIregZero, rs2 := rvIregZero, imm := s32 (operandCimmj.decode inst) }

@[simp] def decodeCjJal (dec : Decode) (inst : Nat) : Decode :=
  { dec with rd := rvIregRa, rs1 := rvIregZero, rs2 := rvIregZero, imm := s32 (operandCimmj.decode inst) }

@[simp] def decodeR (dec : Decode) (inst : Nat) : Decode :=
  { dec with rd := u8 (operandRd.decode inst), rs1 := u8 (operandRs1.decode inst),
             rs2 := u8 (operandRs2.decode inst), imm := 0 }

@[simp] def decodeRM (dec : Decode) (inst : Nat) : Decode :=
  { dec with rd := u8 (operandRd.decode inst), rs1 := u8 (operandRs1.decode inst),
             rs2 := u8 (operandRs2.decode inst), imm := 0, rm := bitField 3 (operandRm.decode inst) }

@[simp] def decodeRL (dec : Decode) (inst : Nat) : Decode :=
  { dec with rd := u8 (operandRd.decode inst), rs1 := u8 (operandRs1.decode inst), rs2 := rvIregZero, imm := 0,
             aq := bitField 1 (operandAq.decode inst), rl := bitField 1 (operandRl.decode inst) }

@[simp] def decodeRA (dec : Decode) (inst : Nat) : Decode :=
  { dec with rd := u8 (operandRd.decode inst), rs1 := u8 (operandRs1.decode inst),
             rs2 := u8 (operandRs2.decode inst), imm := 0, aq := bitField 1 (operandAq.decode inst),
             rl := bitField 1 (operandRl.decode inst) }

@[simp] def decodeR4M (dec : Decode) (inst : Nat) : Decode :=
  { dec with rd := u8 (operandRd.decode inst), rs1 := u8 (operandRs1.decode inst),
             rs2 := u8 (operandRs2.decode inst), rs3 := u8 (operandRs3.decode inst), imm := 0,
             rm := bitField 3 (operandRm.decode inst) }

@[simp] def decodeRF (dec : Decode) (inst : Nat) : Decode :=
  { dec with rd := rvIregZero, rs1 := rvIregZero, rs2 := rvIregZero,
             pred := bitField 4 (operandPred.decode inst), succ := bitField 4 (operandSucc.decode inst),
             imm := 0 }

@[simp] def decodeI (dec : Decode) (inst : Nat) : Decode :=
  { dec with rd := u8 (operandRd.decode inst), rs1 := u8 (operandRs1.decode inst), rs2 := rvIregZero,
             imm := s32 (operandImm12.decode inst) }

@[simp] def decodeICsr (dec : Decode) (inst : Nat) : Decode :=
  { dec with rd := u8 (operandRd.decode inst), rs1 := u8 (operandRs1.decode inst), rs2 := rvIregZero,
             imm := s32 (operandCsr12.decode inst) }

@[simp] def decodeISh5 (dec : Decode) (inst : Nat) : Decode :=
  { dec with rd := u8 (operandRd.decode inst), rs1 := u8 (operandRs1.decode inst), rs2 := rvIregZero,
             imm := s32 (operandShamt5.decode inst) }

@[simp] def decodeISh6 (dec : Decode) (inst : Nat) : Decode :=
  { dec with rd := u8 (operandRd.decode inst), rs1 := u8 (operandRs1.decode inst), rs2 := rvIregZero,
             imm := s32 (operandShamt6.decode inst) }

@[simp] def decodeISh7 (dec : Decode) (inst : Nat) : Decode :=
  { dec with rd := u8 (operandRd.decode inst), rs1 := u8 (operandRs1.decode inst), rs2 := rvIregZero,
             imm := s32 (operandShamt7.decode inst) }

@[simp] def decodeS (dec : Decode) (inst : Nat) : Decode :=
  { dec with rd := rvIregZero, rs1 := u8 (operandRs1.decode inst), rs2 := u8 (operandRs2.decode inst),
             imm := s32 (operandSimm12.decode inst) }

@[simp] def decodeSb (dec : Decode) (inst : Nat) : Decode :=
  { dec with rd := rvIregZero, rs1 := u8 (operandRs1.decode inst), rs2 := u8 (operandRs2.decode inst),
             imm := s32 (operandSbimm12.decode inst) }

@[simp] def decodeU (dec : Decode) (inst : Nat) : Decode :=
  { dec with rd := u8 (operandRd.decode inst), rs1 := rvIregZero, rs2 := rvIregZero,
             imm := s32 (operandImm20.decode inst) }

@[simp] def decodeUj (dec : Decode) (inst : Nat) : Decode :=
  { dec with rd := u8 (operandRd.decode inst), rs1 := rvIregZero, rs2 := rvIregZero,
             imm := s32 (operandJimm20.decode inst) }

/-! ## Encoders -/

@[simp] def encodeNone (_dec : Decode) : Option Nat := some 0

@[simp] def encodeCiNone (dec : Decode) : Option Nat := do
  guard (dec.rd = rvIregZero)
  guard (dec.rs1 = rvIregZero)
  guard (dec.rs2 = rvIregZero)
  return 0

@[simp] def encodeCr (dec : Decode) : Option Nat := do
  guard (dec.rd = dec.rs1)
  return operandCrs1rd.encode dec.rd ||| operandCrs2.encode dec.rs2

@[simp] def encodeCrMv (dec : Decode) : Option Nat := do
  guard (dec.imm = 0)
  return operandCrd.encode dec.rd ||| operandCrs2.encode dec.rs1

@[simp] def encodeCrJalr (dec : Decode) : Option Nat := do
  guard (dec.rd = rvIregRa)
  return operandCrs1.encode dec.rs1

@[simp] def encodeCrJr (dec : Decode) : Option Nat := do
  guard (dec.rd = rvIregZero)
  return operandCrs1.encode dec.rs1

@[simp] def encodeCi (dec : Decode) : Option Nat := do
  guard (dec.rd = dec.rs1)
  return operandCrs1rd.encode dec.rs1 ||| operandCimmi.encode dec.imm

@[simp] def encodeCiSh5 (dec : Decode) : Option Nat := do
  guard (dec.rd = dec.rs1)
  return operandCrs1rd.encode dec.rs1 ||| operandCimmsh5.encode dec.imm

@[simp] def encodeCiSh6 (dec : Decode) : Option Nat := do
  guard (dec.rd = dec.rs1)
  return operandCrs1rd.encode dec.rs1 ||| operandCimmsh6.encode dec.imm

@[simp] def encodeCiLi (dec : Decode) : Option Nat := do
  guard (dec.rs1 = rvIregZero)
  return operandCrd.encode dec.rd ||| operandCimmi.encode dec.imm

@[simp] def encodeCiLui (dec : Decode) : Option Nat := do
  guard (dec.rs1 = rvIregZero)
  return operandCrd.encode dec.rd ||| operandCimmui.encode dec.imm

@[simp] def encodeCiLwsp (dec : Decode) : Option Nat := do
  guard (dec.rs1 = rvIregSp)
  return operandCrd.encode dec.rd ||| operandCimmlwsp.encode dec.imm

@[simp] def encodeCiLdsp (dec : Decode) : Option Nat := do
  guard (dec.rs1 = rvIregSp)
  return operandCrd.encode dec.rd ||| operandCimmldsp.encode dec.imm

@[simp] def encodeCiLqsp (dec : Decode) : Option Nat := do
  guard (dec.rs1 = rvIregSp)
  return operandCrd.encode dec.rd ||| operandCimmlqsp.encode dec.imm

@[simp] def encodeCi16sp (dec : Decode) : Option Nat := do
  guard (dec.rd = rvIregSp)
  guard (dec.rs1 = rvIregSp)
  return operandCimm16sp.encode dec.imm

@[simp] def encodeCssSwsp (dec : Decode) : Option Nat := do
  guard (dec.rs1 = rvIregSp)
  return operandCrs2.encode dec.rs2 ||| operandCimmswsp.encode dec.imm

@[simp] def encodeCssSdsp (dec : Decode) : Option Nat := do
  guard (dec.rs1 = rvIregSp)
  return operandCrs2.encode dec.rs2 ||| operandCimmsdsp.encode dec.imm

@[simp] def encodeCssSqsp (dec : Decode) : Option Nat := do
  guard (dec.rs1 = rvIregSp)
  return operandCrs2.encode dec.rs2 ||| operandCimmsqsp.encode dec.imm

@[simp] def encodeCiw4spn (dec : Decode) : Option Nat := do
  guard (dec.rs1 = rvIregSp)
  return operandCrdq.encode (dec.rd + 8) ||| operandCimm4spn.encode dec.imm

@[simp] def encodeClLw (dec : Decode) : Option Nat :=
  some (operandCrdq.encode (dec.rd + 8) ||| operandCrs1q.encode (dec.rs1 + 8) ||| operandCimmw.encode dec.imm)

@[simp] def encodeClLd (dec : Decode) : Option Nat :=
  some (operandCrdq.encode (dec.rd + 8) ||| operandCrs1q.encode (dec.rs1 + 8) ||| operandCimmd.encode dec.imm)

@[simp] def encodeClLq (dec : Decode) : Option Nat :=
  some (operandCrdq.encode (dec.rd + 8) ||| operandCrs1q.encode (dec.rs1 + 8) ||| operandCimmq.encode dec.imm)

@[simp] def encodeCs (dec : Decode) : Option Nat := do
  guard (dec.rd = dec.rs1)
  return operandCrdq.encode (dec.rd + 8) ||| operandCrs1q.encode (dec.rs1 + 8)

@[simp] def encodeCsSw (dec : Decode) : Option Nat :=
  some (operandCrs1q.encode (dec.rs1 + 8) ||| operandCrs2q.encode (dec.rs2 + 8) ||| operandCimmw.encode dec.imm)

@[simp] def encodeCsSd (dec : Decode) : Option Nat :=
  some (operandCrs1q.encode (dec.rs1 + 8) ||| operandCrs2q.encode (dec.rs2 + 8) ||| operandCimmd.encode dec.imm)

@[simp] def encodeCsSq (dec : Decode) : Option Nat :=
  some (operandCrs1q.encode (dec.rs1 + 8) ||| operandCrs2q.encode (dec.rs2 + 8) ||| operandCimmq.encode dec.imm)

@[simp] def encodeCb (dec : Decode) : Option Nat :=
  some (operandCrs1q.encode (dec.rs1 + 8) ||| operandCimmb.encode dec.imm)

@[simp] def encodeCbImm (dec : Decode) : Option Nat := do
  guard (dec.rd = dec.rs1)
  return operandCrs1rdq.encode (dec.rs1 + 8) ||| operandCimmi.encode dec.imm

@[simp] def encodeCbSh5 (dec : Decode) : Option Nat := do
  guard (dec.rd = dec.rs1)
  return operandCrs1rdq.encode (dec.rs1 + 8) ||| operandCimmsh5.encode dec.imm

@[simp] def encodeCbSh6 (dec : Decode) : Option Nat := do
  guard (dec.rd = dec.rs1)
  return operandCrs1rdq.encode (dec.rs1 + 8) ||| operandCimmsh6.encode dec.imm

@[simp] def encodeCj (dec : Decode) : Option Nat := some (operandCimmj.encode dec.imm)

@[simp] def encodeCjJal (dec : Decode) : Option Nat := some (operandCimmj.encode dec.imm)

@[simp] def encodeR (dec : Decode) : Option Nat :=
  some (operandRd.encode dec.rd ||| operandRs1.encode dec.rs1 ||| operandRs2.encode dec.rs2)

@[simp] def encodeRM (dec : Decode) : Option Nat :=
  some (operandRd.encode dec.rd ||| operandRs1.encode dec.rs1 ||| operandRs2.encode dec.rs2 |||
    operandRm.encode dec.rm)

@[simp] def encodeRL (dec : Decode) : Option Nat := do
  guard (dec.rs2 = 0)
  return operandRd.encode dec.rd ||| operandRs1.encode dec.rs1 ||| operandAq.encode dec.aq ||| operandRl.encode dec.rl

@[simp] def encodeRA (dec : Decode) : Option Nat :=
  some (operandRd.encode dec.rd ||| operandRs1.encode dec.rs1 ||| operandRs2.encode dec.rs2 |||
    operandAq.encode dec.aq ||| operandRl.encode dec.rl)

@[simp] def encodeR4M (dec : Decode) : Option Nat :=
  some (operandRd.encode dec.rd ||| operandRs1.encode dec.rs1 ||| operandRs2.encode dec.rs2 |||
    operandRs3.encode dec.rs3 ||| operandRm.encode dec.rm)

@[simp] def encodeRF (dec : Decode) : Option Nat :=
  some (operandPred.encode dec.pred ||| operandSucc.encode dec.succ)

@[simp] def encodeI (dec : Decode) : Option Nat :=
  some (operandRd.encode dec.rd ||| operandRs1.encode dec.rs1 ||| operandImm12.encode dec.imm)

@[simp] def encodeICsr (dec : Decode) : Option Nat :=
  some (operandRd.encode dec.rd ||| operandRs1.encode dec.rs1 ||| operandCsr12.encode dec.imm)

@[simp] def encodeISh5 (dec : Decode) : Option Nat :=
  some (operandRd.encode dec.rd ||| operandRs1.encode dec.rs1 ||| operandShamt5.encode dec.imm)

@[simp] def encodeISh6 (dec : Decode) : Option Nat :=
  some (operandRd.encode dec.rd ||| operandRs1.encode dec.rs1 ||| operandShamt6.encode dec.imm)

@[simp] def encodeISh7 (dec : Decode) : Option Nat :=
  some (operandRd.encode dec.rd ||| operandRs1.encode dec.rs1 ||| operandShamt7.encode dec.imm)

@[simp] def encodeS (dec : Decode) : Option Nat :=
  some (operandRs1.encode dec.rs1 ||| operandRs2.encode dec.rs2 ||| operandSimm12.encode dec.imm)

@[simp] def encodeSb (dec : Decode) : Option Nat :=
  some (operandRs1.encode dec.rs1 ||| operandRs2.encode dec.rs2 ||| operandSbimm12.encode dec.imm)

@[simp] def encodeU (dec : Decode) : Option Nat := some (operandRd.encode dec.rd ||| operandImm20.encode dec.imm)

@[simp] def encodeUj (dec : Decode) : Option Nat := some (operandRd.encode dec.rd ||| operandJimm20.encode dec.imm)

/-! ## Dispatch on the codec -/

/-- The `switch` of `decode_inst_type`; a record without a codec keeps its fields. -/
def decodeType (codec : RvCodec) (dec : Decode) (inst : Nat) : Decode :=
  match codec with
  | .illegal => dec
  | .none => decodeNone dec inst
  | .u => decodeU dec inst
  | .uj => decodeUj dec inst
  | .i => decodeI dec inst
  | .i_sh5 => decodeISh5 dec inst
  | .i_sh6 => decodeISh6 dec inst
  | .i_sh7 => decodeISh7 dec inst
  | .i_csr => decodeICsr dec inst
  | .s => decodeS dec inst
  | .sb => decodeSb dec inst
  | .r => decodeR dec inst
  | .r_m => decodeRM dec inst
  | .r4_m => decodeR4M dec inst
  | .r_a => decodeRA dec inst
  | .r_l => decodeRL dec inst
  | .r_f => decodeRF dec inst
  | .cb => decodeCb dec inst
  | .cb_imm => decodeCbImm dec inst
  | .cb_sh5 => decodeCbSh5 dec inst
  | .cb_sh6 => decodeCbSh6 dec inst
  | .ci => decodeCi dec inst
  | .ci_sh5 => decodeCiSh5 dec inst
  | .ci_sh6 => decodeCiSh6 dec inst
  | .ci_16sp => decodeCi16sp dec inst
  | .ci_lwsp => decodeCiLwsp dec inst
  | .ci_ldsp => decodeCiLdsp dec inst
  | .ci_lqsp => decodeCiLqsp dec inst
  | .ci_li => decodeCiLi dec inst
  | .ci_lui => decodeCiLui dec inst
  | .ci_none => decodeCiNone dec inst
  | .ciw_4spn => decodeCiw4spn dec inst
  | .cj => decodeCj dec inst
  | .cj_jal => decodeCjJal dec inst
  | .cl_lw => decodeClLw dec inst
  | .cl_ld => decodeClLd dec inst
  | .cl_lq => decodeClLq dec inst
  | .cr => decodeCr dec inst
  | .cr_mv => decodeCrMv dec inst
  | .cr_jalr => decodeCrJalr dec inst
  | .cr_jr => decodeCrJr dec inst
  | .cs => decodeCs dec inst
  | .cs_sw => decodeCsSw dec inst
  | .cs_sd => decodeCsSd dec inst
  | .cs_sq => decodeCsSq dec inst
  | .css_swsp => decodeCssSwsp dec inst
  | .css_sdsp => decodeCssSdsp dec inst
  | .css_sqsp => decodeCssSqsp dec inst

def decodeInstType (dec : Decode) (inst : Nat) : Decode :=
  decodeType (rvInstCodec dec.op) { dec with codec := rvInstCodec dec.op } inst

/-- The `switch` of `encode_inst`: the operand bits of the instruction word. -/
def encodeType (codec : RvCodec) (dec : Decode) : Option Nat :=
  match codec with
  | .illegal => some 0
  | .none => encodeNone dec
  | .u => encodeU dec
  | .uj => encodeUj dec
  | .i => encodeI dec
  | .i_sh5 => encodeISh5 dec
  | .i_sh6 => encodeISh6 dec
  | .i_sh7 => encodeISh7 dec
  | .i_csr => encodeICsr dec
  | .s => encodeS dec
  | .sb => encodeSb dec
  | .r => encodeR dec
  | .r_m => encodeRM dec
  | .r4_m => encodeR4M dec
  | .r_a => encodeRA dec
  | .r_l => encodeRL dec
  | .r_f => encodeRF dec
  | .cb => encodeCb dec
  | .cb_imm => encodeCbImm dec
  | .cb_sh5 => encodeCbSh5 dec
  | .cb_sh6 => encodeCbSh6 dec
  | .ci => encodeCi dec
  | .ci_sh5 => encodeCiSh5 dec
  | .ci_sh6 => encodeCiSh6 dec
  | .ci_16sp => encodeCi16sp dec
  | .ci_lwsp => encodeCiLwsp dec
  | .ci_ldsp => encodeCiLdsp dec
  | .ci_lqsp => encodeCiLqsp dec
  | .ci_li => encodeCiLi dec
  | .ci_lui => encodeCiLui dec
  | .ci_none => encodeCiNone dec
  | .ciw_4spn => encodeCiw4spn dec
  | .cj => encodeCj dec
  | .cj_jal => encodeCjJal dec
  | .cl_lw => encodeClLw dec
  | .cl_ld => encodeClLd dec
  | .cl_lq => encodeClLq dec
  | .cr => encodeCr dec
  | .cr_mv => encodeCrMv dec
  | .cr_jalr => encodeCrJalr dec
  | .cr_jr => encodeCrJr dec
  | .cs => encodeCs dec
  | .cs_sw => encodeCsSw dec
  | .cs_sd => encodeCsSd dec
  | .cs_sq => encodeCsSq dec
  | .css_swsp => encodeCssSwsp dec
  | .css_sdsp => encodeCssSdsp dec
  | .css_sqsp => encodeCssSqsp dec

def encodeInst (dec : Decode) : Option Nat :=
  (encodeType (rvInstCodec dec.op) dec).map fun bits => rvInstMatch dec.op ||| bits

/-! ## Decompression and compression -/

/-- `decompress_inst_rvXX` with the table of its width. -/
def decompressInst (decomp : RvOp → RvOp) (dec : Decode) : Decode :=
  let decompOp := decomp dec.op
  if decompOp ≠ .illegal then { dec with op := decompOp, codec := rvInstCodec decompOp } else dec

def decompressInstRv32 : Decode → Decode := decompressInst rvInstDecompRv32
def decompressInstRv64 : Decode → Decode := decompressInst rvInstDecompRv64
def decompressInstRv128 : Decode → Decode := decompressInst rvInstDecompRv128

/-- One case of `constraint_check`; `imm & (2^n - 1) == 0` on a signed `imm` is divisibility. -/
def constraintHolds (dec : Decode) : RvcConstraint → Bool
  | .simm_6 => dec.imm ≥ -32 ∧ dec.imm < 32
  | .imm_6 => dec.imm ≤ 63
  | .imm_7 => dec.imm ≤ 127
  | .imm_8 => dec.imm ≤ 255
  | .imm_9 => dec.imm ≤ 511
  | .imm_10 => dec.imm ≤ 1023
  | .imm_12 => dec.imm ≤ 4095
  | .imm_18 => dec.imm ≤ 262143
  | .imm_nz => dec.imm ≠ 0
  | .imm_x2 => dec.imm % 2 = 0
  | .imm_x4 => dec.imm % 4 = 0
  | .imm_x8 => dec.imm % 8 = 0
  | .imm_x16 => dec.imm % 16 = 0
  | .rd_b3 => dec.rd ≥ 8 ∧ dec.rd ≤ 15
  | .rs1_b3 => dec.rs1 ≥ 8 ∧ dec.rs1 ≤ 15
  | .rs2_b3 => dec.rs2 ≥ 8 ∧ dec.rs2 ≤ 15
  | .rd_eq_rs1 => dec.rd = dec.rs1
  | .rd_eq_ra => dec.rd = 1
  | .rd_eq_sp => dec.rd = 2
  | .rd_eq_x0 => dec.rd = 0
  | .rs1_eq_sp => dec.rs1 = 2
  | .rs1_eq_x0 => dec.rs1 = 0
  | .rs2_eq_x0 => dec.rs2 = 0
  | .rd_ne_x0_x2 => dec.rd ≠ 0 ∧ dec.rd ≠ 2
  | .rd_ne_x0 => dec.rd ≠ 0
  | .rs1_ne_x0 => dec.rs1 ≠ 0
  | .rs2_ne_x0 => dec.rs2 ≠ 0
  | .rs2_eq_rs1 => dec.rs2 = dec.rs1
  | .rs1_eq_ra => dec.rs1 = 1
  | .imm_eq_zero => dec.imm = 0
  | .imm_eq_n1 => dec.imm = -1
  | .imm_eq_p1 => dec.imm = 1
  | .csr_eq_0x001 => dec.imm = 0x001
  | .csr_eq_0x002 => dec.imm = 0x002
  | .csr_eq_0x003 => dec.imm = 0x003
  | .csr_eq_0xc00 => dec.imm = 0xc00
  | .csr_eq_0xc01 => dec.imm = 0xc01
  | .csr_eq_0xc02 => dec.imm = 0xc02
  | .csr_eq_0xc80 => dec.imm = 0xc80
  | .csr_eq_0xc81 => dec.imm = 0xc81
  | .csr_eq_0xc82 => dec.imm = 0xc82

def constraintCheck (dec : Decode) (cs : List RvcConstraint) : Bool := cs.all (constraintHolds dec)

/-- `compress_inst_rvXX` with the table of its width: the first candidate whose constraints hold. -/
def compressInst (comp : RvOp → List RvCompData) (dec : Decode) : Option Decode :=
  ((comp dec.op).find? fun compData => constraintCheck dec compData.constraints).map fun compData =>
    { dec with op := compData.op, codec := rvInstCodec compData.op }

def compressInstRv32 : Decode → Option Decode := compressInst rvInstCompRv32
def compressInstRv64 : Decode → Option Decode := compressInst rvInstCompRv64
def compressInstRv128 : Decode → Option Decode := compressInst rvInstCompRv128

def Xlen.decompress : Xlen → Decode → Decode
  | .rv32 => decompressInstRv32
  | .rv64 => decompressInstRv64
  | .rv128 => decompressInstRv128

def Xlen.compress : Xlen → Decode → Option Decode
  | .rv32 => compressInstRv32
  | .rv64 => compressInstRv64
  | .rv128 => compressInstRv128

end Rv8.Asm
