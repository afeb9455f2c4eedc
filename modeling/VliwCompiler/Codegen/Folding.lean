import VliwCompiler.Isel.Registers
import VliwCompiler.Llvm.Evaluation
import VliwCompiler.Codegen.Context
import VliwCompiler.Regalloc.Operation

/-!
# Folded addresses

A chain of `getelementptr` instructions with constant indices becomes the
displacement of the address operand of a load or store.  The compiler scales an
index by the whole bytes of the element type with arithmetic that aborts on
overflow; LLVM scales it by the allocation size of the type modulo `2 ^ 64`.
-/

namespace VliwCompiler

open Asm (I64)

namespace Llvm

/-- The distance in bytes of consecutive integers: the bytes that hold one,
rounded up to the alignment of the type. -/
def allocSize (abiAlignment : Nat → Nat) (bits : Nat) : Nat :=
  ((bits + 7) / 8 + abiAlignment bits - 1) / abiAlignment bits * abiAlignment bits

/-- The alignment of integers, in bytes, when a module specifies none. -/
def defaultAbiAlignment (bits : Nat) : Nat :=
  if bits ≤ 8 then 1 else if bits ≤ 16 then 2 else 4

end Llvm

namespace Codegen

open Mir (Value Reg)
open Llvm (ValueRef Operand Instruction)
open Isel (Selection)
open Machine (State Word)

/-! ### Chains -/

/-- One `getelementptr` of a chain: its address, the width of its element type,
which LLVM limits, and its index. -/
structure Link where
  ref : ValueRef
  bits : Nat
  index : I64
  isWidth : bits ≤ 2 ^ 23

namespace Link

def instruction (link : Link) (base : Operand) : Instruction :=
  ⟨link.ref, .ptr, .getElementPtr (.int link.bits) base [.constInt 64 link.index]⟩

/-- The index scaled by the whole bytes of the element type. -/
def displacement (link : Link) : Int := link.index.toInt * ((link.bits / 8 : Nat) : Int)

/-- What the scaled index lacks because the element type does not fill the
memory between two elements. -/
def padding (abiAlignment : Nat → Nat) (link : Link) : Int :=
  link.index.toInt * ((Llvm.allocSize abiAlignment link.bits : Int) - ((link.bits / 8 : Nat) : Int))

end Link

/-- The instructions of a chain; each has the pointer of the one before it as
base. -/
def chain (base : Operand) : List Link → List Instruction
  | [] => []
  | link :: links => link.instruction base :: chain (.ref link.ref .ptr) links

/-- The pointer at the end of a chain. -/
def endPointer (base : Operand) : List Link → Operand
  | [] => base
  | link :: links => endPointer (.ref link.ref .ptr) links

/-- The sum of the scaled indices. -/
def totalDisplacement (links : List Link) : Int := (links.map Link.displacement).sum

/-- What a chain starts from: a pointer in a register or the `inttoptr` of an
integer constant, with its width and its sign-extended value. -/
inductive Root where
  | register (key : ValueRef) (vreg : Nat)
  | constant (bits : Nat) (value : I64)
  deriving DecidableEq

namespace Root

def operand : Root → Operand
  | register key _ => .ref key .ptr
  | constant bits value => .constAddress bits value

/-- The pointer has the register and is not itself folded. -/
def Available (selection : Selection) : Root → Prop
  | register key vreg =>
      selection.gepMap.lookup key = none ∧ selection.vregMap.lookup key = some vreg
  | constant _ _ => True

/-- The address at the start of the chain when virtual registers are replaced by
physical ones. -/
def address (rename : Nat → UInt8) (state : State UInt8) : Root → Word
  | register _ vreg => state.readGpr (rename vreg)
  | constant bits value => Llvm.intToPtr bits value

/-- What a sign-extended address lacks. -/
def missing : Root → Int
  | register _ _ => 0
  | constant bits value => (Llvm.intToPtr bits value).toInt - value.toInt

end Root

/-- A load or a store. -/
inductive Access where
  | load (ref : ValueRef) (bits : Nat)
  | store (ref : ValueRef) (value : Operand)

namespace Access

def instruction (pointer : Operand) : Access → Instruction
  | load ref bits => ⟨ref, .int bits, .load pointer⟩
  | store ref value => ⟨ref, .void, .store value pointer⟩

/-- There is an opcode for the width, and stored values have registers. -/
def Selectable (selection : Selection) : Access → Prop
  | load _ bits => bits ∈ [8, 32, 64]
  | store _ value => (∃ bits ∈ [8, 32, 64], value.type = .int bits) ∧
      ∀ key, value.ref? = some key → ∃ vreg, selection.vregMap.lookup key = some vreg

end Access

section

variable (module : Llvm.Module) (memorySize : Nat) (labelOf : Llvm.BlockRef → Outcome String)
  (label : String) (rename : Nat → UInt8)

/-- A syllable with its virtual registers replaced. -/
def allocated (syllable : Mir.Syllable) : Mir.Syllable :=
  ⟨syllable.opcode, syllable.dst.map (Regalloc.renameReg rename),
    syllable.srcs.map (Regalloc.renameValue rename)⟩

def isMemAddr : Asm.Operand → Bool
  | .memAddr _ _ => true
  | _ => false

/-- Lower a chain and an access through its last pointer, and find the address
operand of the access. -/
def accessOperand (selection : Selection) (root : Root) (links : List Link) (access : Access) :
    Outcome (Option Asm.Operand) := do
  let selection ← (chain root.operand links).foldlM
    (Isel.lowerInstruction module memorySize labelOf label) selection
  let selection ← Isel.lowerInstruction module memorySize labelOf label selection
    (access.instruction (endPointer root.operand links))
  let syllable ← expect "access" selection.syllables.getLast?
  let lowered ← lowerSyllable (allocated rename syllable)
  return lowered.operands.find? isMemAddr

/-- The address that LLVM computes. -/
def llvmAddress (abiAlignment : Nat → Nat) (state : State UInt8) (root : Root)
    (links : List Link) : Word :=
  root.address rename state +
    (links.map fun link =>
      link.index * BitVec.ofNat 64 (Llvm.allocSize abiAlignment link.bits)).sum

/-- The access is lowered, and its operand denotes the address that LLVM
computes. -/
def FoldsExactly (abiAlignment : Nat → Nat) (selection : Selection) (root : Root)
    (links : List Link) (access : Access) : Prop :=
  ∃ base offset,
    accessOperand module memorySize labelOf label rename selection root links access =
      .ok (some (.memAddr base offset)) ∧
    ∀ state : State UInt8,
      state.readGpr base + offset = llvmAddress rename abiAlignment state root links

end

/-- The conditions on a chain under which its address is folded exactly. -/
structure Foldable (abiAlignment : Nat → Nat) (root : Root) (links : List Link) : Prop where
  products : ∀ link ∈ links, Fits link.displacement
  sums : ∀ n, Fits (totalDisplacement (links.take n))
  absolute : ∀ bits value, root = .constant bits value →
    Fits (value.toInt + totalDisplacement links)
  padding : (2 ^ 64 : Int) ∣ root.missing + (links.map (Link.padding abiAlignment)).sum

/-! ### Scaled indices -/

/-- Add the scaled indices to a displacement. -/
def scaleLinks (links : List Link) (offset : I64) : Outcome I64 :=
  links.foldlM (fun total link =>
    Isel.foldIndex (BitVec.ofNat 64 (link.bits / 8)) total (.constInt 64 link.index)) offset

theorem toInt_elemBytes (link : Link) :
    (BitVec.ofNat 64 (link.bits / 8)).toInt = ((link.bits / 8 : Nat) : Int) := by
  have bound := link.isWidth
  rw [BitVec.toInt_eq_toNat_of_lt]
  · rw [BitVec.toNat_ofNat, Nat.mod_eq_of_lt (by omega)]
  · rw [BitVec.toNat_ofNat, Nat.mod_eq_of_lt (by omega)]
    omega

theorem foldIndex_eq_ok_iff {link : Link} {offset total : I64} :
    Isel.foldIndex (BitVec.ofNat 64 (link.bits / 8)) offset (.constInt 64 link.index) = .ok total ↔
      Fits link.displacement ∧ Fits (offset.toInt + link.displacement) ∧
        total.toInt = offset.toInt + link.displacement := by
  have product {value : I64} : checkedMul link.index (BitVec.ofNat 64 (link.bits / 8)) = .ok value ↔
      Fits link.displacement ∧ value.toInt = link.displacement := by
    rw [checkedMul_eq_ok_iff_toInt, toInt_elemBytes]
    rfl
  constructor
  · intro folded
    obtain ⟨value, multiplied, added⟩ := bind_eq_ok.mp folded
    obtain ⟨fitsProduct, isProduct⟩ := product.mp multiplied
    rw [checkedAdd_eq_ok_iff_toInt, isProduct] at added
    exact ⟨fitsProduct, added⟩
  · rintro ⟨fitsProduct, added⟩
    have isProduct := toInt_ofInt_of_fits fitsProduct
    refine bind_eq_ok.mpr ⟨BitVec.ofInt 64 link.displacement,
      product.mpr ⟨fitsProduct, isProduct⟩, ?_⟩
    rw [checkedAdd_eq_ok_iff_toInt, isProduct]
    exact added

theorem totalDisplacement_cons (link : Link) (links : List Link) :
    totalDisplacement (link :: links) = link.displacement + totalDisplacement links := by
  simp [totalDisplacement]

theorem scaleLinks_eq_ok_iff {links : List Link} {offset total : I64} :
    scaleLinks links offset = .ok total ↔
      (∀ link ∈ links, Fits link.displacement) ∧
      (∀ n, Fits (offset.toInt + totalDisplacement (links.take n))) ∧
      total.toInt = offset.toInt + totalDisplacement links := by
  induction links generalizing offset with
  | nil =>
      have fits := fits_toInt offset
      have nothing : scaleLinks [] offset = .ok total ↔ offset = total := by
        simp [scaleLinks, pure, Except.pure]
      rw [nothing]
      simp [totalDisplacement, fits, BitVec.toInt_inj, eq_comm]
  | cons link links ih =>
      have unfolded : scaleLinks (link :: links) offset =
          Isel.foldIndex (BitVec.ofNat 64 (link.bits / 8)) offset (.constInt 64 link.index) >>=
            scaleLinks links := by
        rw [scaleLinks, List.foldlM_cons]
        rfl
      rw [unfolded, bind_eq_ok, totalDisplacement_cons, List.forall_mem_cons]
      constructor
      · rintro ⟨middle, first, rest⟩
        obtain ⟨fitsProduct, -, isMiddle⟩ := foldIndex_eq_ok_iff.mp first
        obtain ⟨products, sums, isTotal⟩ := ih.mp rest
        refine ⟨⟨fitsProduct, products⟩, ?_, by rw [isTotal, isMiddle, add_assoc]⟩
        intro n
        cases n with
        | zero => simpa [totalDisplacement] using fits_toInt offset
        | succ n =>
            rw [List.take_succ_cons, totalDisplacement_cons, ← add_assoc, ← isMiddle]
            exact sums n
      · rintro ⟨⟨fitsProduct, products⟩, sums, isTotal⟩
        have fitsSum : Fits (offset.toInt + link.displacement) := by
          simpa [totalDisplacement] using sums 1
        have isMiddle := toInt_ofInt_of_fits fitsSum
        refine ⟨BitVec.ofInt 64 (offset.toInt + link.displacement),
          foldIndex_eq_ok_iff.mpr ⟨fitsProduct, fitsSum, isMiddle⟩, ih.mpr ⟨products, ?_, ?_⟩⟩
        · intro n
          rw [isMiddle, add_assoc, ← totalDisplacement_cons]
          exact sums (n + 1)
        · rw [isMiddle, isTotal, add_assoc]

/-! ### Lowering -/

section

variable (module : Llvm.Module) (memorySize : Nat) (labelOf : Llvm.BlockRef → Outcome String)
  (label : String) (rename : Nat → UInt8) {selection : Selection}

theorem lowerInstruction_link {base : Operand} {baseVal : Value} {offset : I64} (link : Link)
    (isBase : Isel.lowerPtrOperand base selection = .ok (baseVal, offset)) :
    Isel.lowerInstruction module memorySize labelOf label selection (link.instruction base) =
      (Isel.foldIndex (BitVec.ofNat 64 (link.bits / 8)) offset (.constInt 64 link.index)).map
        fun total => { selection with
          gepMap := selection.gepMap.insert link.ref (baseVal, total) } := by
  have unfolded : Isel.lowerInstruction module memorySize labelOf label selection
      (link.instruction base) = Isel.lowerGetElementPtr link.ref (.int link.bits) base
        [.constInt 64 link.index] selection := rfl
  rw [unfolded, Isel.lowerGetElementPtr, isBase, Isel.intTypeByteSize]
  generalize BitVec.ofNat 64 (link.bits / 8) = elemBytes
  simp only [bind, Except.bind, List.foldlM_cons, List.foldlM_nil]
  cases Isel.foldIndex elemBytes offset (.constInt 64 link.index) <;> rfl

theorem lowerPtrOperand_of_folded {key : ValueRef} {folded : Value × I64}
    (found : selection.gepMap.lookup key = some folded) :
    Isel.lowerPtrOperand (.ref key .ptr) selection = .ok folded := by
  unfold Isel.lowerPtrOperand
  simp only [found]

/-- Lowering a chain adds its scaled indices and changes nothing but the folded
pointers. -/
theorem lower_chain {base : Operand} {baseVal : Value} {offset : I64} (links : List Link)
    (isBase : Isel.lowerPtrOperand base selection = .ok (baseVal, offset)) :
    match scaleLinks links offset with
    | .error failure => (chain base links).foldlM
        (Isel.lowerInstruction module memorySize labelOf label) selection = .error failure
    | .ok total => ∃ geps, (chain base links).foldlM
          (Isel.lowerInstruction module memorySize labelOf label) selection =
            .ok { selection with gepMap := geps } ∧
        Isel.lowerPtrOperand (endPointer base links) { selection with gepMap := geps } =
          .ok (baseVal, total) := by
  induction links generalizing base offset selection with
  | nil => exact ⟨selection.gepMap, rfl, isBase⟩
  | cons link links ih =>
      rw [chain, List.foldlM_cons, lowerInstruction_link module memorySize labelOf label link isBase,
        scaleLinks, List.foldlM_cons]
      cases Isel.foldIndex (BitVec.ofNat 64 (link.bits / 8)) offset
          (.constInt 64 link.index) with
      | error failure => rfl
      | ok value => exact ih (lowerPtrOperand_of_folded (AList.lookup_insert _))

/-- The base of a chain. -/
def Root.value : Root → Value
  | register _ vreg => .reg (.vreg vreg)
  | constant _ value => .imm value

theorem Root.Available.lowered {root : Root} (available : root.Available selection) :
    Isel.lowerPtrOperand root.operand selection = .ok (root.value, 0) := by
  cases root with
  | constant bits value => rfl
  | register key vreg =>
      obtain ⟨notFolded, isBound⟩ := available
      unfold Root.operand Isel.lowerPtrOperand
      simp only [notFolded, isBound]
      rfl

theorem isMemAddr_of_addressOperand {base : Value} {offset : I64} {operand : Asm.Operand}
    (lowered : addressOperand base offset = .ok operand) : isMemAddr operand = true := by
  cases base with
  | imm address | stack address =>
      obtain ⟨sum, -, rfl⟩ := map_eq_ok.mp lowered
      rfl
  | reg reg =>
      obtain ⟨preg, -, rfl⟩ := map_eq_ok.mp lowered
      rfl

theorem loadAddress_addressSrcs (base : Value) (offset : I64) :
    loadAddress ((Isel.addressSrcs base offset).map (Regalloc.renameValue rename)) =
      addressOperand (Regalloc.renameValue rename base) offset := by
  unfold Isel.addressSrcs
  split
  · rename_i isZero
    rw [isZero]
    rfl
  · rfl

theorem storeOperands_addressSrcs (base : Value) (offset : I64) (vreg : Nat) :
    storeOperands ((Isel.addressSrcs base offset ++ [Value.reg (.vreg vreg)]).map
        (Regalloc.renameValue rename)) =
      (addressOperand (Regalloc.renameValue rename base) offset).map
        fun operand => (operand, Asm.Operand.reg (rename vreg)) := by
  have stored (srcs : List Value) (displacement : I64)
      (isStore : storeOperands srcs = do
        let operand ← addressOperand (Regalloc.renameValue rename base) displacement
        let data ← gprOrImmOperand (.reg (.preg (rename vreg)))
        return (operand, data)) :
      storeOperands srcs = (addressOperand (Regalloc.renameValue rename base) displacement).map
        fun operand => (operand, Asm.Operand.reg (rename vreg)) := by
    rw [isStore]
    cases addressOperand (Regalloc.renameValue rename base) displacement <;> rfl
  unfold Isel.addressSrcs
  split
  · rename_i isZero
    rw [isZero]
    exact stored [_, _] 0 rfl
  · exact stored [_, _, _] offset rfl

/-- Stored values are moved to a register or have one. -/
theorem lowerOperand_of_selectable {ref : ValueRef} {value : Operand}
    (selectable : (Access.store ref value).Selectable selection) :
    ∃ opcode vreg after, Isel.storeOpcode value = .ok opcode ∧
      opcode ∈ [Asm.Opcode.storeB, .storeW, .storeD] ∧
      Isel.lowerOperand value selection = .ok (.reg (.vreg vreg), after) := by
  obtain ⟨⟨bits, isWidth, isType⟩, bound⟩ := selectable
  have hasOpcode : ∃ opcode, Isel.storeOpcode value = .ok opcode ∧
      opcode ∈ [Asm.Opcode.storeB, .storeW, .storeD] := by
    simp only [List.mem_cons, List.not_mem_nil, or_false] at isWidth
    unfold Isel.storeOpcode
    rw [isType]
    rcases isWidth with rfl | rfl | rfl
    · exact ⟨_, rfl, by simp⟩
    · exact ⟨_, rfl, by simp⟩
    · exact ⟨_, rfl, by simp⟩
  obtain ⟨opcode, isOpcode, isStore⟩ := hasOpcode
  suffices ∃ vreg after, Isel.lowerOperand value selection = .ok (.reg (.vreg vreg), after) by
    obtain ⟨vreg, after, lowered⟩ := this
    exact ⟨opcode, vreg, after, isOpcode, isStore, lowered⟩
  cases value with
  | constInt width constant => exact ⟨_, _, rfl⟩
  | constAddress bits value => cases isType
  | constCast => cases isType
  | const type =>
      cases isType
      exact ⟨_, _, rfl⟩
  | ref key type =>
      cases isType
      obtain ⟨vreg, isBound⟩ := bound key rfl
      refine ⟨vreg, selection, ?_⟩
      simp [Isel.lowerOperand, Isel.intConstant, isBound, expect]

theorem lowerSyllable_load {opcode : Asm.Opcode}
    (isLoad : opcode ∈ [Asm.Opcode.loadB, .loadW, .loadD]) (preg : UInt8) (srcs : List Value) :
    lowerSyllable ⟨opcode, some (.preg preg), srcs⟩ =
      (loadAddress srcs).map fun operand => ⟨opcode.mnemonic, [.reg preg, operand]⟩ := by
  simp only [List.mem_cons, List.not_mem_nil, or_false] at isLoad
  rcases isLoad with rfl | rfl | rfl
  all_goals
    simp only [lowerSyllable, expect, gprForReg]
    cases loadAddress srcs <;> rfl

theorem lowerSyllable_store {opcode : Asm.Opcode}
    (isStore : opcode ∈ [Asm.Opcode.storeB, .storeW, .storeD]) (srcs : List Value) :
    lowerSyllable ⟨opcode, none, srcs⟩ =
      (storeOperands srcs).map fun operands => ⟨opcode.mnemonic, [operands.1, operands.2]⟩ := by
  simp only [List.mem_cons, List.not_mem_nil, or_false] at isStore
  rcases isStore with rfl | rfl | rfl
  all_goals
    simp only [lowerSyllable]
    cases storeOperands srcs <;> rfl

/-- The syllable of an access through a lowered pointer. -/
theorem lowerInstruction_access {pointer : Operand} {baseVal : Value} {offset : I64}
    {access : Access} (selectable : access.Selectable selection)
    (isPointer : Isel.lowerPtrOperand pointer selection = .ok (baseVal, offset)) :
    ∃ after syllable, Isel.lowerInstruction module memorySize labelOf label selection
        (access.instruction pointer) = .ok after ∧
      after.syllables.getLast? = some syllable ∧
      (lowerSyllable (allocated rename syllable)).map (·.operands.find? isMemAddr) =
        (addressOperand (Regalloc.renameValue rename baseVal) offset).map some := by
  cases access with
  | load ref bits =>
      have hasOpcode : ∃ opcode, Isel.loadOpcode (.int bits) = .ok opcode ∧
          opcode ∈ [Asm.Opcode.loadB, .loadW, .loadD] := by
        have isWidth : bits ∈ [8, 32, 64] := selectable
        simp only [List.mem_cons, List.not_mem_nil, or_false] at isWidth
        rcases isWidth with rfl | rfl | rfl
        · exact ⟨_, rfl, by simp⟩
        · exact ⟨_, rfl, by simp⟩
        · exact ⟨_, rfl, by simp⟩
      obtain ⟨opcode, isOpcode, isLoad⟩ := hasOpcode
      refine ⟨(selection.push ⟨opcode, some (.vreg selection.nextVreg),
        Isel.addressSrcs baseVal offset⟩).bindVreg ref, _, ?_, List.getLast?_concat .., ?_⟩
      · change Isel.lowerLoad _ _ _ = _
        unfold Isel.lowerLoad
        simp only [Access.instruction]
        rw [isOpcode, isPointer]
        rfl
      · rw [allocated, Option.map_some, Regalloc.renameReg, lowerSyllable_load isLoad,
          loadAddress_addressSrcs]
        cases lowered : addressOperand (Regalloc.renameValue rename baseVal) offset with
        | error failure => rfl
        | ok operand =>
            have isAddress := isMemAddr_of_addressOperand lowered
            have notAddress : isMemAddr (.reg (rename selection.nextVreg)) = false := rfl
            simp [Except.map, isAddress, notAddress]
  | store ref value =>
      obtain ⟨opcode, vreg, middle, isOpcode, isStore, lowered⟩ :=
        lowerOperand_of_selectable selectable
      have samePointer : Isel.lowerPtrOperand pointer middle = .ok (baseVal, offset) := by
        have sameVregs := (Isel.takes_of_lowerOperand lowered).2
        have sameGeps := Isel.gepMap_of_lowerOperand lowered
        rw [← isPointer]
        unfold Isel.lowerPtrOperand
        rw [sameVregs, sameGeps]
      refine ⟨middle.push ⟨opcode, none, Isel.addressSrcs baseVal offset ++ [.reg (.vreg vreg)]⟩,
        _, ?_, List.getLast?_concat .., ?_⟩
      · change Isel.lowerStore _ _ _ = _
        unfold Isel.lowerStore
        rw [isOpcode]
        simp only [bind, Except.bind]
        rw [lowered]
        dsimp only
        rw [samePointer]
        rfl
      · rw [allocated, Option.map_none, lowerSyllable_store isStore, storeOperands_addressSrcs]
        cases lowered : addressOperand (Regalloc.renameValue rename baseVal) offset with
        | error failure => rfl
        | ok operand =>
            have isAddress := isMemAddr_of_addressOperand lowered
            simp [Except.map, isAddress]

/-- The operand of an access is the base of its chain with the sum of the scaled
indices. -/
theorem accessOperand_eq {root : Root} {links : List Link} {access : Access}
    (available : root.Available selection) (selectable : access.Selectable selection) :
    accessOperand module memorySize labelOf label rename selection root links access =
      (scaleLinks links 0) >>= fun total =>
        (addressOperand (Regalloc.renameValue rename root.value) total).map some := by
  have lowered := lower_chain module memorySize labelOf label links available.lowered
  unfold accessOperand
  cases scaled : scaleLinks links 0 with
  | error failure =>
      rw [scaled] at lowered
      rw [lowered]
      rfl
  | ok total =>
      rw [scaled] at lowered
      obtain ⟨geps, isChain, isPointer⟩ := lowered
      have selectable' : access.Selectable { selection with gepMap := geps } := by
        cases access <;> exact selectable
      obtain ⟨after, syllable, isAfter, isLast, isOperand⟩ :=
        lowerInstruction_access module memorySize labelOf label rename selectable' isPointer
      rw [isChain]
      simp only [bind, Except.bind]
      rw [isAfter]
      dsimp only
      rw [isLast, ← isOperand]
      simp only [expect]
      cases lowerSyllable (allocated rename syllable) <;> rfl

/-! ### Exactness -/

theorem sum_allocSize (abiAlignment : Nat → Nat) (links : List Link) :
    (links.map fun link =>
        link.index * BitVec.ofNat 64 (Llvm.allocSize abiAlignment link.bits)).sum =
      BitVec.ofInt 64 (totalDisplacement links + (links.map (Link.padding abiAlignment)).sum) := by
  induction links with
  | nil => rfl
  | cons link links ih =>
      have isProduct : link.index * BitVec.ofNat 64 (Llvm.allocSize abiAlignment link.bits) =
          BitVec.ofInt 64 (link.displacement + link.padding abiAlignment) := by
        rw [Link.displacement, Link.padding, ← mul_add, add_sub_cancel, BitVec.ofInt_mul,
          BitVec.ofInt_toInt, BitVec.ofInt_natCast]
      rw [List.map_cons, List.sum_cons, ih, isProduct, totalDisplacement_cons, List.map_cons,
        List.sum_cons, ← BitVec.ofInt_add]
      congr 1
      exact add_add_add_comm ..

theorem ofInt_eq_ofInt_iff {first second : Int} :
    BitVec.ofInt 64 first = BitVec.ofInt 64 second ↔ (2 ^ 64 : Int) ∣ second - first := by
  have split : BitVec.ofInt 64 second = BitVec.ofInt 64 first + BitVec.ofInt 64 (second - first) := by
    rw [← BitVec.ofInt_add, add_sub_cancel]
  rw [split, left_eq_add, ← BitVec.toInt_inj, BitVec.toInt_ofInt]
  exact Int.dvd_iff_bmod_eq_zero.symm

/-- Addresses agree when what scaling and sign extension leave out cancels. -/
theorem add_eq_sum_allocSize_iff {abiAlignment : Nat → Nat} {links : List Link} {total : I64}
    (isTotal : total.toInt = totalDisplacement links) (value base : I64) :
    value + total = base + (links.map fun link =>
        link.index * BitVec.ofNat 64 (Llvm.allocSize abiAlignment link.bits)).sum ↔
      (2 ^ 64 : Int) ∣ (base.toInt - value.toInt) +
        (links.map (Link.padding abiAlignment)).sum := by
  have left : value + total = BitVec.ofInt 64 (value.toInt + totalDisplacement links) := by
    rw [BitVec.ofInt_add, BitVec.ofInt_toInt, ← isTotal, BitVec.ofInt_toInt]
  rw [sum_allocSize, left]
  generalize (links.map (Link.padding abiAlignment)).sum = padding
  have right : base + BitVec.ofInt 64 (totalDisplacement links + padding) =
      BitVec.ofInt 64 (base.toInt + (totalDisplacement links + padding)) := by
    rw [BitVec.ofInt_add (base.toInt), BitVec.ofInt_toInt]
  rw [right, ofInt_eq_ofInt_iff]
  congr! 1
  omega

/-- Absolute addresses are formed by an addition that may overflow, others by the
machine. -/
theorem addressOperand_root_iff {root : Root} {total : I64} {base : UInt8} {offset : I64} :
    (addressOperand (Regalloc.renameValue rename root.value) total).map some =
        .ok (some (.memAddr base offset)) ↔
      match root with
      | .register _ vreg => base = rename vreg ∧ offset = total
      | .constant _ value => base = 0 ∧ Fits (value.toInt + total.toInt) ∧
          offset = value + total := by
  cases root with
  | register key vreg =>
      change Except.ok (some (Asm.Operand.memAddr (rename vreg) total)) = _ ↔ _
      simp [eq_comm]
  | constant bits value =>
      change ((checkedAdd value total).map (Asm.Operand.memAddr 0)).map some = _ ↔ _
      constructor
      · intro emitted
        obtain ⟨operand, isOperand, same⟩ := map_eq_ok.mp emitted
        obtain ⟨sum, isSum, rfl⟩ := map_eq_ok.mp isOperand
        obtain ⟨rfl, rfl⟩ : 0 = base ∧ sum = offset := by simpa using same
        obtain ⟨noOverflow, rfl⟩ := checkedAdd_eq_ok.mp isSum
        exact ⟨rfl, saddOverflow_eq_false_iff.mp noOverflow, rfl⟩
      · rintro ⟨rfl, fits, rfl⟩
        have added : checkedAdd value total = .ok (value + total) :=
          checkedAdd_eq_ok.mpr ⟨saddOverflow_eq_false_iff.mpr fits, rfl⟩
        rw [added]
        rfl

/-- The address of an access is folded exactly when no product and no sum leaves
the range of 64 bits with sign and the padding of the elements passed over cancels
out, together with what the sign extension of a constant base leaves out. -/
theorem foldsExactly_iff {abiAlignment : Nat → Nat} {root : Root} {links : List Link}
    {access : Access} (available : root.Available selection)
    (selectable : access.Selectable selection) :
    FoldsExactly module memorySize labelOf label rename abiAlignment selection root links access ↔
      Foldable abiAlignment root links := by
  unfold FoldsExactly
  have isZeroWord : (0 : I64).toInt = 0 := rfl
  rw [accessOperand_eq module memorySize labelOf label rename available selectable]
  constructor
  · rintro ⟨base, offset, lowered, denotes⟩
    obtain ⟨total, scaled, emitted⟩ := bind_eq_ok.mp lowered
    obtain ⟨products, sums, isTotal⟩ := scaleLinks_eq_ok_iff.mp scaled
    rw [isZeroWord, zero_add] at isTotal
    simp only [isZeroWord, zero_add] at sums
    rw [addressOperand_root_iff] at emitted
    have denoted := denotes default
    refine ⟨products, sums, ?_, ?_⟩
    · rintro bits value rfl
      rw [← isTotal]
      exact emitted.2.1
    · cases root with
      | register key vreg =>
          obtain ⟨rfl, rfl⟩ := emitted
          rw [llvmAddress, Root.address, add_eq_sum_allocSize_iff isTotal, sub_self] at denoted
          exact denoted
      | constant bits value =>
          obtain ⟨rfl, -, rfl⟩ := emitted
          have isZero : (default : State UInt8).readGpr 0 = 0 := rfl
          rw [isZero, zero_add] at denoted
          exact (add_eq_sum_allocSize_iff isTotal _ _).mp denoted
  · rintro ⟨products, sums, absolute, padding⟩
    have fits : Fits (totalDisplacement links) := by simpa using sums links.length
    have isTotal := toInt_ofInt_of_fits fits
    have scaled : scaleLinks links 0 = .ok (BitVec.ofInt 64 (totalDisplacement links)) := by
      rw [scaleLinks_eq_ok_iff, isTotal]
      simp only [isZeroWord, zero_add]
      exact ⟨products, sums, trivial⟩
    cases root with
    | register key vreg =>
        refine ⟨rename vreg, _, bind_eq_ok.mpr ⟨_, scaled,
          (addressOperand_root_iff rename).mpr ⟨rfl, rfl⟩⟩, ?_⟩
        intro state
        refine (add_eq_sum_allocSize_iff isTotal _ _).mpr ?_
        rwa [Root.address, sub_self]
    | constant bits value =>
        refine ⟨0, _, bind_eq_ok.mpr ⟨_, scaled,
          (addressOperand_root_iff rename).mpr ⟨rfl, ?_, rfl⟩⟩, ?_⟩
        · rw [isTotal]
          exact absolute bits value rfl
        · intro state
          have isZero : state.readGpr 0 = 0 := by simp [State.readGpr]
          rw [isZero, zero_add]
          exact (add_eq_sum_allocSize_iff isTotal _ _).mpr padding

end

/-- A pointer parameter of a function. -/
def pointerSelection : Selection := ({} : Selection).bindVreg 7

/-- An index of an array of bits. -/
def bitLink : Link := ⟨8, 1, 1, by decide⟩

/-- A word two elements after the pointer. -/
theorem foldsExactly_word :
    FoldsExactly [] 4096 (fun _ => .ok "entry") "entry" (fun _ => 5) Llvm.defaultAbiAlignment
      pointerSelection (.register 7 0) [⟨8, 32, 2, by decide⟩] (.load 9 32) := by
  have available : (Root.register 7 0).Available pointerSelection := ⟨rfl, rfl⟩
  have selectable : (Access.load 9 32).Selectable pointerSelection := by simp [Access.Selectable]
  refine (foldsExactly_iff [] 4096 (fun _ => .ok "entry") "entry" (fun _ => 5)
    available selectable).mpr ⟨by decide, ?_, ?_, by decide⟩
  · intro n
    cases n with
    | zero => decide
    | succ n =>
        rw [List.take_succ_cons, List.take_nil]
        decide
  · intro bits value isConstant
    cases isConstant

/-- The second bit of an array of bits is taken for the first one. -/
theorem bitIndex_dropped :
    ¬FoldsExactly [] 4096 (fun _ => .ok "entry") "entry" (fun _ => 5) Llvm.defaultAbiAlignment
      pointerSelection (.register 7 0) [bitLink] (.load 9 32) := by
  rintro ⟨base, offset, lowered, denotes⟩
  have emitted : accessOperand [] 4096 (fun _ => .ok "entry") "entry" (fun _ => 5)
      pointerSelection (.register 7 0) [bitLink] (.load 9 32) = .ok (some (.memAddr 5 0)) := by
    decide +kernel
  rw [emitted] at lowered
  cases lowered
  exact absurd (denotes default) (by decide)

example : ¬FoldsExactly [] 4096 (fun _ => .ok "entry") "entry" (fun _ => 5)
    Llvm.defaultAbiAlignment {} (.constant 32 (-8)) [] (.load 9 32) := by
  rintro ⟨base, offset, lowered, denotes⟩
  have emitted : accessOperand [] 4096 (fun _ => .ok "entry") "entry" (fun _ => 5)
      {} (.constant 32 (-8)) [] (.load 9 32) = .ok (some (.memAddr 0 (-8))) := by
    decide +kernel
  rw [emitted] at lowered
  cases lowered
  exact absurd (denotes default) (by decide)

end Codegen

end VliwCompiler
