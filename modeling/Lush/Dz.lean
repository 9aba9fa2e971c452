import Lush.Ints
import Lush.Library.Words
import Lush.Library.Binary64

/-!
# DZ functions in binary files

A DZ function is a program of a small stack machine.  Its instructions and its constants are
words of one array, and only the operation before a constant tells that it is one; so
`dz_serialize` counts the constants that are still to come while it goes through the words.

The count goes up instead of down: behind the first constant all words are written in full.
Before it an instruction is written without the bytes that it does not use.  So a program is
read back exactly when the words up to there are instructions and nothing else (`Kept`), and
this fails when the number of constants of an operation does not fit in its argument.
-/

namespace Lush.Dz

/-! ## The code -/

/-- The first character of a name in `dz_opnames`: no operand, a place in the stack, an
immediate number, an array of numbers, or a label. -/
inductive OpClass
  | o | r | i | n | l
deriving DecidableEq

/-- `dz_opnames`, without what the operations do to the stack. -/
def dzOpnames : List (OpClass × String) :=
  [(.o, "<<RETURN>>"), (.o, "NOP"), (.o, "STACK"), (.o, "PRINT"), (.o, "ERROR"),
    (.o, "POP"), (.o, "DUP"), (.i, "PUSH#"), (.r, "PUSH@"), (.r, "POP@"), (.r, "SET@"),
    (.o, "MINUS"), (.o, "INVERT"), (.o, "ADD1"), (.o, "SUB1"), (.o, "MUL2"), (.o, "DIV2"),
    (.o, "SGN"), (.o, "ABS"), (.o, "INT"), (.o, "SQRT"), (.o, "PIECE"), (.o, "RECT"),
    (.o, "SIN"), (.o, "COS"), (.o, "TAN"), (.o, "ASIN"), (.o, "ACOS"), (.o, "ATAN"),
    (.o, "EXP"), (.o, "EXPM1"), (.o, "LOG"), (.o, "LOG1P"),
    (.o, "TANH"), (.o, "COSH"), (.o, "SINH"), (.o, "ATANH"),
    (.o, "QTANH"), (.o, "QDTANH"), (.o, "QSTDSIGMOID"), (.o, "QDSTDSIGMOID"),
    (.o, "QEXPMX"), (.o, "QDEXPMX"), (.o, "QEXPMX2"), (.o, "QDEXPMX2"),
    (.o, "RAND"), (.o, "GAUSS"), (.n, "SPLINE"), (.n, "DSPLINE"),
    (.i, "ADD#"), (.r, "ADD@"), (.o, "ADD"), (.i, "MUL#"), (.r, "MUL@"), (.o, "MUL"),
    (.i, "SUB#"), (.r, "SUB@"), (.o, "SUB"), (.i, "DIV#"), (.r, "DIV@"), (.o, "DIV"),
    (.i, "MAX#"), (.r, "MAX@"), (.o, "MAX"), (.i, "MIN#"), (.r, "MIN@"), (.o, "MIN"),
    (.i, "MODI#"), (.r, "MODI@"), (.o, "MODI"), (.i, "DIVI#"), (.r, "DIVI@"), (.o, "DIVI"),
    (.i, "POWER#"), (.r, "POWER@"), (.o, "POWER"),
    (.l, "BR"), (.l, "BREQ"), (.l, "BRNEQ"), (.l, "BRGT"), (.l, "BRLT"), (.l, "BRGEQ"),
    (.l, "BRLEQ"), (.l, "BEGFOR"), (.l, "ENDFOR")]

/-- `find_opname`, which leaves out the return; `0` when there is no such operation. -/
def findOpname (s : String) : ℕ :=
  match (dzOpnames.drop 1).findIdx? (·.2 = s) with
  | some op => op + 1
  | none => 0

/-- `union dz_inst`, as a little-endian machine has it: the constant, or the operation and the
argument in the four low bytes. -/
abbrev Word := BitVec 64

def Word.op (w : Word) : BitVec 16 := w.extractLsb' 0 16

def Word.arg (w : Word) : BitVec 16 := w.extractLsb' 16 16

/-- A word from `calloc` in which the operation and the argument have been set. -/
def code (op arg : BitVec 16) : Word := BitVec.append (0 : BitVec 32) (BitVec.append arg op)

/-- `dz_opnames[op][0]`, for an operation of the table. -/
def opClass (op : BitVec 16) : Option OpClass :=
  if 0 ≤ op.toInt then (dzOpnames[op.toInt.toNat]?).map (·.1) else none

/-- `DZ_STACK_SIZE`. -/
def dzStackSize : ℤ := 1000

/-- `struct dz_cell`, with the words of the program before the final return.  The function for
calls from C depends on the number of arguments only. -/
structure DzCell where
  numArg : BitVec 32
  requiredStack : BitVec 32
  program : List Word
  stack_le : requiredStack.toInt ≤ dzStackSize
  size_lt : program.length < 2 ^ 31

/-- `dz_new`, and the program that is put into the cell. -/
def dzNew (narg reqs : BitVec 32) (program : List Word) : Except Fault DzCell :=
  if hstack : reqs.toInt ≤ dzStackSize then
    if hsize : program.length < 2 ^ 31 then .ok ⟨narg, reqs, program, hstack, hsize⟩
    else .error .unmodelled
  else .error (.error "DZ stack is too small")

/-! ### Programs -/

/-- The operand of an instruction, after the labels have been looked up. -/
abbrev Operand : OpClass → Type
  | .o => Unit
  | .r => ℤ
  | .i => Word
  | .n => List Word
  | .l => ℤ

/-- An instruction of a list for `dz-load`. -/
structure Ins where
  op : Fin dzOpnames.length
  operand : Operand (dzOpnames.get op).1

/-- `gen_code`, by the class of the operation. -/
def genOperand (op : BitVec 16) : (c : OpClass) → Operand c → Except Fault (List Word)
  | .o, _ => .ok [code op 0]
  | .r, arg =>
      if arg = 0 then
        if op = BitVec.ofNat 16 (findOpname "PUSH@") then
          .ok [code (BitVec.ofNat 16 (findOpname "DUP")) 0]
        else if op = BitVec.ofNat 16 (findOpname "POP@") then
          .ok [code (BitVec.ofNat 16 (findOpname "NOP")) 0]
        else .error (.error "Stack relative operand is 0")
      else .ok [code op (BitVec.ofInt 16 (-arg))]
  | .i, c => .ok [code op 0, c]
  | .n, cs => .ok (code op (BitVec.ofNat 16 cs.length) :: cs)
  | .l, arg => .ok [code op (BitVec.ofInt 16 arg)]

def genCode (ins : Ins) : Except Fault (List Word) :=
  genOperand (BitVec.ofNat 16 ins.op) _ ins.operand

/-- `dz-load`, behind the static analysis; `reqstack` is what the analysis has found. -/
def dzLoad (nargs reqstack : BitVec 32) (prog : List Ins) : Except Fault DzCell := do
  let words ← prog.mapM genCode
  dzNew nargs reqstack words.flatten

/-- `lisp_spline`: the points and the third column that `Dsplinit` adds. -/
def lispSpline (op : String) (points : List (Word × Word)) (dsplinit : ℕ → Word) :
    Except Fault DzCell :=
  let wspace := points.map (·.1) ++ points.map (·.2) ++ (List.range points.length).map dsplinit
  dzNew 1 1
    (code (BitVec.ofNat 16 (findOpname op)) (BitVec.ofNat 16 (3 * points.length)) :: wspace)

/-- The size of the array in an instruction. -/
def arraySize : (c : OpClass) → Operand c → ℕ
  | .n, cs => cs.length
  | .o, _ | .r, _ | .i, _ | .l, _ => 0

/-- The functions that `dz-load`, `dz-spline` and `dz-dspline` make, with arrays of at most `m`
numbers. -/
inductive Made (m : ℕ) : DzCell → Prop
  | load {nargs reqstack : BitVec 32} {prog : List Ins} {dz : DzCell} :
      (∀ ins ∈ prog, arraySize _ ins.operand ≤ m) → dzLoad nargs reqstack prog = .ok dz → Made m dz
  | spline {op : String} {points : List (Word × Word)} {dsplinit : ℕ → Word} {dz : DzCell} :
      op = "SPLINE" ∨ op = "DSPLINE" → 3 * points.length ≤ m →
      lispSpline op points dsplinit = .ok dz → Made m dz

/-! ### Serialization -/

/-- The bytes of a word, the highest one first: `write_card16`, `write_card32`, and
`serialize_real` with the bytes swapped. -/
def writeCard {k : ℕ} (w : BitVec (8 * k)) : List UInt8 := (Words.encode w).reverse

/-- `read_card16`, `read_card32`, and `serialize_real`. -/
def readCard (k : ℕ) (bs : List UInt8) : Except Fault (BitVec (8 * k) × List UInt8) :=
  if k ≤ bs.length then .ok (Words.decode k (bs.take k).reverse, bs.drop k)
  else .error (.error "End of file during bread")

def writeShort (x : BitVec 16) : List UInt8 := @writeCard 2 x

def readShort (bs : List UInt8) : Except Fault (BitVec 16 × List UInt8) := readCard 2 bs

def writeInt (x : BitVec 32) : List UInt8 := @writeCard 4 x

def readInt (bs : List UInt8) : Except Fault (BitVec 32 × List UInt8) := readCard 4 bs

def writeReal (x : Word) : List UInt8 := @writeCard 8 x

def readReal (bs : List UInt8) : Except Fault (Word × List UInt8) := readCard 8 bs

/-- A round of the loop that writes, with the next `ncst`. -/
def writeWord (ncst : ℤ) (w : Word) : Except Fault (List UInt8 × ℤ) :=
  if 0 < ncst then .ok (writeReal w, ncst + 1)
  else
    match opClass w.op with
    | some .n => .ok (writeShort w.op ++ writeShort w.arg, w.arg.toInt)
    | some .i => .ok (writeShort w.op, 1)
    | some .r | some .l => .ok (writeShort w.op ++ writeShort w.arg, ncst)
    | some .o => .ok (writeShort w.op, ncst)
    | none => .error .undefined

/-- A round of the loop that reads. -/
def readWord (ncst : ℤ) (bs : List UInt8) : Except Fault (Word × ℤ × List UInt8) :=
  if 0 < ncst then do
    let (constant, bs) ← readReal bs
    return (constant, ncst + 1, bs)
  else do
    let (op, bs) ← readShort bs
    match opClass op with
    | some .n => do
        let (arg, bs) ← readShort bs
        return (code op arg, arg.toInt, bs)
    | some .i => return (code op 0, 1, bs)
    | some .r | some .l => do
        let (arg, bs) ← readShort bs
        return (code op arg, ncst, bs)
    | some .o => return (code op 0, ncst, bs)
    | none => .error .undefined

def writeWords (ncst : ℤ) : List Word → Except Fault (List UInt8)
  | [] => .ok []
  | w :: ws => do
      let (bs, ncst) ← writeWord ncst w
      return bs ++ (← writeWords ncst ws)

def readWords (ncst : ℤ) : ℕ → List UInt8 → Except Fault (List Word × List UInt8)
  | 0, bs => .ok ([], bs)
  | n + 1, bs => do
      let (w, ncst, bs) ← readWord ncst bs
      let (ws, bs) ← readWords ncst n bs
      return (w :: ws, bs)

/-- `dz_serialize` in write mode. -/
def dzWrite (dz : DzCell) : Except Fault (List UInt8) := do
  let words ← writeWords 0 dz.program
  return writeInt dz.numArg ++ writeInt dz.requiredStack ++
    writeInt (BitVec.ofNat 32 dz.program.length) ++ words

/-- `dz_serialize` in read mode. -/
def dzRead (bs : List UInt8) : Except Fault (DzCell × List UInt8) := do
  let (narg, bs) ← readInt bs
  let (reqs, bs) ← readInt bs
  let (plen, bs) ← readInt bs
  if dzStackSize < reqs.toInt then .error (.error "DZ stack is too small")
  else if plen.toInt < 0 then .error .unmodelled
  else do
    let (program, bs) ← readWords 0 plen.toInt.toNat bs
    return (← dzNew narg reqs program, bs)

/-! ## What is read back -/

/-- A function is read back as it was, and the bytes behind it are left. -/
def RoundTrips (dz : DzCell) : Prop :=
  ∃ bs, dzWrite dz = .ok bs ∧ ∀ rest, dzRead (bs ++ rest) = .ok (dz, rest)

/-- The words that are taken for instructions, up to the first one that has constants, are
operations of the table with their arguments and nothing else. -/
def Kept : List Word → Prop
  | [] => True
  | w :: ws =>
      match opClass w.op with
      | some .n => w = code w.op w.arg ∧ (0 < w.arg.toInt ∨ Kept ws)
      | some .i => w = code w.op 0
      | some .r | some .l => w = code w.op w.arg ∧ Kept ws
      | some .o => w = code w.op 0 ∧ Kept ws
      | none => False

/-! ## Words -/

@[simp] theorem op_code (op arg : BitVec 16) : (code op arg).op = op := by
  ext i hi
  simp [code, Word.op]
  grind

@[simp] theorem arg_code (op arg : BitVec 16) : (code op arg).arg = arg := by
  ext i hi
  simp [code, Word.arg]
  grind

theorem readCard_writeCard {k : ℕ} (w : BitVec (8 * k)) (rest : List UInt8) :
    readCard k (writeCard w ++ rest) = .ok (w, rest) := by
  have hlength : (writeCard w).length = k := by
    rw [writeCard, List.length_reverse, Words.length_encode]
  rw [readCard, if_pos (by rw [List.length_append]; omega), List.take_left' hlength,
    List.drop_left' hlength, writeCard, List.reverse_reverse, Words.decode_encode]

variable {rest : List UInt8}

@[simp] theorem readShort_writeShort (x : BitVec 16) :
    readShort (writeShort x ++ rest) = .ok (x, rest) := @readCard_writeCard 2 x rest

@[simp] theorem readInt_writeInt (x : BitVec 32) :
    readInt (writeInt x ++ rest) = .ok (x, rest) := @readCard_writeCard 4 x rest

@[simp] theorem readReal_writeReal (x : Word) :
    readReal (writeReal x ++ rest) = .ok (x, rest) := @readCard_writeCard 8 x rest

/-! ## The loop -/

/-- What is left of a word in the file. -/
def held (ncst : ℤ) (w : Word) : Word :=
  if 0 < ncst then w
  else
    match opClass w.op with
    | some .n | some .r | some .l => code w.op w.arg
    | _ => code w.op 0

variable {ncst c : ℤ} {w : Word} {ws : List Word} {bs : List UInt8}

/-- **A round reads what a round has written.** -/
theorem readWord_writeWord (h : writeWord ncst w = .ok (bs, c)) :
    readWord ncst (bs ++ rest) = .ok (held ncst w, c, rest) := by
  unfold writeWord at h
  unfold readWord held
  by_cases hncst : 0 < ncst
  · rw [if_pos hncst] at h
    cases h
    rw [if_pos hncst, if_pos hncst, readReal_writeReal]
    rfl
  · rw [if_neg hncst] at h
    rw [if_neg hncst, if_neg hncst]
    rcases hclass : opClass w.op with _ | class'
    · rw [hclass] at h
      cases h
    · rw [hclass] at h
      cases class' with
      | o | i =>
          cases h
          rw [readShort_writeShort]
          simp only [bind, Except.bind, hclass]
          rfl
      | r | n | l =>
          cases h
          rw [List.append_assoc, readShort_writeShort]
          simp only [bind, Except.bind, hclass, readShort_writeShort]
          rfl

/-- The words are read back as they were. -/
def Faithful (ncst : ℤ) (ws : List Word) : Prop :=
  ∃ bs, writeWords ncst ws = .ok bs ∧
    ∀ rest, readWords ncst ws.length (bs ++ rest) = .ok (ws, rest)

theorem faithful_nil (ncst : ℤ) : Faithful ncst [] := ⟨[], rfl, fun _ => rfl⟩

theorem faithful_cons (h : writeWord ncst w = .ok (bs, c)) :
    Faithful ncst (w :: ws) ↔ held ncst w = w ∧ Faithful c ws := by
  have hread : ∀ n rest, readWords ncst (n + 1) (bs ++ rest) =
      (readWords c n rest).map fun r => (held ncst w :: r.1, r.2) := by
    intro n rest
    rw [readWords, readWord_writeWord h, ok_bind]
    dsimp only
    cases readWords c n rest <;> rfl
  have hwrite : writeWords ncst (w :: ws) = (writeWords c ws).map (bs ++ ·) := by
    rw [writeWords, h, ok_bind]
    dsimp only
    cases writeWords c ws <;> rfl
  unfold Faithful
  rw [hwrite, List.length_cons]
  constructor
  · rintro ⟨_, hsome, hall⟩
    rcases hws : writeWords c ws with e | bs'
    · rw [hws] at hsome
      cases hsome
    · rw [hws] at hsome
      cases hsome
      have hrest : ∀ rest, held ncst w = w ∧
          readWords c ws.length (bs' ++ rest) = .ok (ws, rest) := by
        intro rest
        have hw := hall rest
        rw [List.append_assoc, hread] at hw
        rcases hr : readWords c ws.length (bs' ++ rest) with e | r
        · rw [hr] at hw
          cases hw
        · rw [hr] at hw
          injection Except.ok.inj hw with hcons hend
          injection hcons with hhead htail
          exact ⟨hhead, congrArg _ (Prod.ext htail hend)⟩
      exact ⟨(hrest []).1, bs', rfl, fun rest => (hrest rest).2⟩
  · rintro ⟨hheld, bs', hws, hall⟩
    refine ⟨bs ++ bs', by rw [hws]; rfl, fun rest => ?_⟩
    rw [List.append_assoc, hread, hall, hheld]
    rfl

/-- **Behind a constant everything is kept**, for the count never comes back to zero. -/
theorem faithful_of_pos (h : 0 < ncst) : Faithful ncst ws := by
  induction ws generalizing ncst with
  | nil => exact faithful_nil ncst
  | cons w ws ih =>
      have hwrite : writeWord ncst w = .ok (writeReal w, ncst + 1) := if_pos h
      exact (faithful_cons hwrite).mpr ⟨if_pos h, ih (by omega)⟩

/-- **Before a constant** the words must be instructions and nothing else. -/
theorem faithful_iff_kept (h : ncst ≤ 0) : Faithful ncst ws ↔ Kept ws := by
  induction ws generalizing ncst with
  | nil => exact iff_of_true (faithful_nil ncst) trivial
  | cons w ws ih =>
      have hncst : ¬0 < ncst := by omega
      have hheld : held ncst w = _ := if_neg hncst
      have hwrite : writeWord ncst w = _ := if_neg hncst
      rw [Kept]
      rcases hclass : opClass w.op with _ | class'
      · rw [hclass] at hwrite
        refine iff_of_false ?_ not_false
        rintro ⟨bs, hbs, -⟩
        rw [writeWords, hwrite] at hbs
        cases hbs
      · rw [hclass] at hheld hwrite
        cases class' with
        | o => rw [faithful_cons hwrite, hheld, ih h, eq_comm]
        | r | l => rw [faithful_cons hwrite, hheld, ih h, eq_comm]
        | i => rw [faithful_cons hwrite, hheld, and_iff_left (faithful_of_pos Int.one_pos), eq_comm]
        | n =>
            have hnext : Faithful w.arg.toInt ws ↔ 0 < w.arg.toInt ∨ Kept ws := by
              by_cases hpos : 0 < w.arg.toInt
              · exact iff_of_true (faithful_of_pos hpos) (.inl hpos)
              · rw [ih (by omega), or_iff_right hpos]
            rw [faithful_cons hwrite, hheld, hnext, eq_comm]

/-! ## Functions -/

variable {dz : DzCell}

theorem dzNew_self (dz : DzCell) : dzNew dz.numArg dz.requiredStack dz.program = .ok dz := by
  rw [dzNew, dif_pos dz.stack_le, dif_pos dz.size_lt]

theorem dzNew_ok {narg reqs : BitVec 32} {program : List Word}
    (h : dzNew narg reqs program = .ok dz) : dz.program = program := by
  unfold dzNew at h
  split_ifs at h
  cases h
  rfl

/-- The header tells the number of the words. -/
theorem dzRead_header (dz : DzCell) (bs : List UInt8) :
    dzRead (writeInt dz.numArg ++ writeInt dz.requiredStack ++
        writeInt (BitVec.ofNat 32 dz.program.length) ++ bs) = do
      let (program, bs) ← readWords 0 dz.program.length bs
      return (← dzNew dz.numArg dz.requiredStack program, bs) := by
  have hsize := dz.size_lt
  have hplen : (BitVec.ofNat 32 dz.program.length).toInt = dz.program.length := by
    rw [BitVec.toInt_ofNat', Int.bmod_eq_of_le (by omega) (by omega)]
  rw [dzRead, List.append_assoc, List.append_assoc, readInt_writeInt, ok_bind]
  dsimp only
  rw [readInt_writeInt, ok_bind]
  dsimp only
  rw [readInt_writeInt, ok_bind]
  dsimp only
  rw [if_neg dz.stack_le.not_gt, hplen, if_neg (by omega), Int.toNat_natCast]

/-- **A function is read back exactly when its words are kept.** -/
theorem roundTrips_iff_kept (dz : DzCell) : RoundTrips dz ↔ Kept dz.program := by
  rw [← faithful_iff_kept le_rfl]
  constructor
  · rintro ⟨bs, hwrite, hall⟩
    rw [dzWrite] at hwrite
    obtain ⟨words, hwords, hbs⟩ := bind_ok.mp hwrite
    cases hbs
    refine ⟨words, hwords, fun rest => ?_⟩
    have hread := hall rest
    rw [List.append_assoc, dzRead_header] at hread
    obtain ⟨⟨program, bs'⟩, hr, hread⟩ := bind_ok.mp hread
    obtain ⟨dz', hnew, hread⟩ := bind_ok.mp hread
    cases hread
    rw [hr, dzNew_ok hnew]
  · rintro ⟨words, hwords, hall⟩
    refine ⟨_, by rw [dzWrite, hwords, ok_bind]; rfl, fun rest => ?_⟩
    rw [List.append_assoc, dzRead_header, hall, ok_bind]
    dsimp only
    rw [dzNew_self]
    rfl

/-! ## Small arrays -/

theorem toInt_ofNat_of_lt {n : ℕ} (h : n < 2 ^ 15) : (BitVec.ofNat 16 n).toInt = n := by
  rw [BitVec.toInt_ofNat', Int.bmod_eq_of_le (by omega) (by omega)]

/-- An array whose size fits in the argument. -/
theorem kept_array {op : BitVec 16} {cs : List Word} (hclass : opClass op = some .n)
    (hcs : cs.length < 2 ^ 15) (hws : Kept ws) :
    Kept (code op (BitVec.ofNat 16 cs.length) :: (cs ++ ws)) := by
  rw [Kept, op_code, arg_code, hclass]
  refine ⟨rfl, ?_⟩
  rw [toInt_ofNat_of_lt hcs]
  cases cs with
  | nil => exact .inr hws
  | cons c cs => exact .inl (by rw [List.length_cons]; omega)

/-- The words of an instruction are kept, whatever is kept behind them. -/
theorem kept_genOperand {op : BitVec 16} {class' : OpClass} (hclass : opClass op = some class')
    {operand : Operand class'} (harray : arraySize class' operand < 2 ^ 15) {words : List Word}
    (h : genOperand op class' operand = .ok words) (hws : Kept ws) : Kept (words ++ ws) := by
  cases class' with
  | o =>
      cases h
      rw [List.singleton_append, Kept, op_code, hclass]
      exact ⟨rfl, hws⟩
  | i =>
      cases h
      rw [List.cons_append, Kept, op_code, hclass]
  | n =>
      cases h
      exact kept_array hclass harray hws
  | l =>
      cases h
      rw [List.singleton_append, Kept, op_code, arg_code, hclass]
      exact ⟨rfl, hws⟩
  | r =>
      have hone : ∀ op' arg : BitVec 16, opClass op' = some .o ∧ arg = 0 ∨ opClass op' = some .r →
          Kept ([code op' arg] ++ ws) := by
        rintro op' arg (⟨hclass', rfl⟩ | hclass')
        · rw [List.singleton_append, Kept, op_code, hclass']
          exact ⟨rfl, hws⟩
        · rw [List.singleton_append, Kept, op_code, arg_code, hclass']
          exact ⟨rfl, hws⟩
      change (if operand = (0 : ℤ) then _ else _) = _ at h
      split_ifs at h
      · exact Except.ok.inj h ▸ hone _ _ (.inl ⟨by decide, rfl⟩)
      · exact Except.ok.inj h ▸ hone _ _ (.inl ⟨by decide, rfl⟩)
      · exact Except.ok.inj h ▸ hone _ _ (.inr hclass)

theorem opClass_ofNat (op : Fin dzOpnames.length) :
    opClass (BitVec.ofNat 16 op) = some (dzOpnames.get op).1 := by
  have hlt : (op : ℕ) < 2 ^ 15 := op.isLt.trans (by decide)
  rw [opClass, toInt_ofNat_of_lt hlt, if_pos (by omega), Int.toNat_natCast,
    List.getElem?_eq_getElem op.isLt]
  rfl

/-- The words of a program. -/
theorem kept_program {prog : List Ins} {words : List (List Word)}
    (harrays : ∀ ins ∈ prog, arraySize _ ins.operand < 2 ^ 15)
    (h : prog.mapM genCode = .ok words) : Kept words.flatten := by
  rw [mapM_ok_iff] at h
  induction h with
  | nil => trivial
  | @cons ins block prog words hblock _ ih =>
      rw [List.forall_mem_cons] at harrays
      exact kept_genOperand (opClass_ofNat ins.op) harrays.1 hblock (ih harrays.2)

theorem length_wspace (points : List (Word × Word)) (dsplinit : ℕ → Word) :
    (points.map (·.1) ++ points.map (·.2) ++ (List.range points.length).map dsplinit).length =
      3 * points.length := by
  simp only [List.length_append, List.length_map, List.length_range]
  omega

theorem lispSpline_ok {points : List (Word × Word)} (op : String) (dsplinit : ℕ → Word)
    (h : 3 * points.length + 1 < 2 ^ 31) : ∃ dz, lispSpline op points dsplinit = .ok dz := by
  rw [lispSpline, dzNew, dif_pos (by decide), dif_pos (by rwa [List.length_cons, length_wspace])]
  exact ⟨_, rfl⟩

theorem kept_spline {op : String} {points : List (Word × Word)} {dsplinit : ℕ → Word}
    (hop : op = "SPLINE" ∨ op = "DSPLINE") (hpoints : 3 * points.length < 2 ^ 15)
    (h : lispSpline op points dsplinit = .ok dz) : Kept dz.program := by
  have hclass : opClass (BitVec.ofNat 16 (findOpname op)) = some .n := by
    rcases hop with rfl | rfl <;> decide
  rw [dzNew_ok h]
  set wspace := points.map (·.1) ++ points.map (·.2) ++ (List.range points.length).map dsplinit
  have hlength : 3 * points.length = wspace.length := (length_wspace points dsplinit).symm
  rw [hlength] at hpoints ⊢
  have hkept : Kept (_ :: (wspace ++ [])) := kept_array hclass hpoints trivial
  rwa [List.append_nil] at hkept

/-- **Serialization of DZ functions**: a function is read back exactly when its words are kept,
and this is so when the sizes of its arrays fit in the arguments. -/
theorem dzSerialize_roundTrips {m : ℕ} (h : Made m dz) :
    (RoundTrips dz ↔ Kept dz.program) ∧ (m < 2 ^ 15 → RoundTrips dz) := by
  refine ⟨roundTrips_iff_kept dz, fun hm => (roundTrips_iff_kept dz).mpr ?_⟩
  cases h with
  | load harrays hload =>
      obtain ⟨words, hwords, hnew⟩ := bind_ok.mp hload
      rw [dzNew_ok hnew]
      exact kept_program (fun ins hins => (harrays ins hins).trans_lt hm) hwords
  | spline hop hpoints hspline => exact kept_spline hop (hpoints.trans_lt hm) hspline

/-- `(dz-load 1 '(("PUSH#" 2) ("MUL")))`. -/
def twice : List Ins := [⟨⟨7, by decide⟩, (0x4000000000000000#64 : Word)⟩, ⟨⟨54, by decide⟩, ()⟩]

theorem roundTrips_twice : ∃ dz, dzLoad 1 2 twice = .ok dz ∧ RoundTrips dz := by
  obtain ⟨dz, hdz⟩ : ∃ dz, dzLoad 1 2 twice = .ok dz := ⟨⟨1, 2,
    [code 7 0, 0x4000000000000000#64, code 54 0], by decide, by decide⟩, rfl⟩
  exact ⟨dz, hdz, (dzSerialize_roundTrips (m := 0) (.load (by decide) hdz)).2 (by decide)⟩

/-- The points `(1, 0)`, `(2, 0)` and so on. -/
def linePoints (n : ℕ) : List (Word × Word) :=
  (List.range n).map fun i : ℕ => (Binary64.encode false (i + 1), 0)

/-- When the size is negative as an argument, the first constant is taken for a return. -/
theorem not_kept_linePoints {n : ℕ} (hpos : 0 < n) (hneg : (BitVec.ofNat 16 (3 * n)).toInt ≤ 0)
    (h : lispSpline "SPLINE" (linePoints n) (fun _ => 0) = .ok dz) : ¬Kept dz.program := by
  have hlength : (linePoints n).length = n := by rw [linePoints, List.length_map, List.length_range]
  have hhead : linePoints n = (Binary64.encode false 1, 0) :: (linePoints n).tail := by
    obtain ⟨n, rfl⟩ := Nat.exists_eq_add_one.mpr hpos
    rw [linePoints, List.range_succ_eq_map, List.map_cons, List.tail_cons, Nat.cast_zero, zero_add]
  have hspline : opClass (BitVec.ofNat 16 (findOpname "SPLINE")) = some .n := by decide
  have hone : Binary64.encode false 1 = 0x3FF0000000000000#64 := by decide +kernel
  have hreturn : opClass (Word.op 0x3FF0000000000000#64) = some .o := by decide
  rw [dzNew_ok h, hlength, Kept, op_code, arg_code, hspline]
  rintro ⟨-, hshort | hkept⟩
  · exact absurd hshort hneg.not_gt
  · rw [hhead, List.map_cons, List.cons_append, List.cons_append, Kept, hone, hreturn] at hkept
    exact absurd hkept.1 (by decide)

/-- **A large spline** loses its constants. -/
theorem not_roundTrips_linePoints :
    ∃ dz, lispSpline "SPLINE" (linePoints 10923) (fun _ => 0) = .ok dz ∧ ¬RoundTrips dz := by
  have hlength : (linePoints 10923).length = 10923 := by
    rw [linePoints, List.length_map, List.length_range]
  obtain ⟨dz, hdz⟩ := @lispSpline_ok (linePoints 10923) "SPLINE" (fun _ => 0) (by rw [hlength]; decide)
  exact ⟨dz, hdz, fun h =>
    not_kept_linePoints (by decide) (by decide) hdz ((roundTrips_iff_kept dz).mp h)⟩

end Lush.Dz
