import SlotCompiler.Code.Instr

/-!
# The text of a module

Every instruction is one line. A module frames the lines of a routine with its declarations and its
end.
-/

namespace SlotCompiler

def Arith.mnemonic : Arith → String
  | .add => "add"
  | .sub => "sub"
  | .mul => "mul"
  | .div => "sdiv"

def Test.mnemonic : Test → String
  | .zero => "eq"
  | .nonzero => "ne"
  | .positive => "sgt"

def tempText (id : Nat) : String := "%t" ++ id.repr

def Operand.text : Operand → String
  | .literal value => value.toInt.repr
  | .temp id => tempText id

/-- A variable's slot ends in `r`, which keeps it apart from the temporaries. -/
def Slot.text : Slot → String
  | .var name => "%" ++ name ++ "r"
  | .temp id => tempText id

def Label.text : Label → String
  | .ifBody id => "ifbody" ++ id.repr
  | .ifEnd id => "ifend" ++ id.repr
  | .whileTest id => "whcond" ++ id.repr
  | .whileBody id => "whbody" ++ id.repr
  | .whileEnd id => "whend" ++ id.repr
  | .chooseArm arm id => "choose" ++ arm.repr ++ id.repr
  | .chooseEnd id => "chooseend" ++ id.repr

def Instr.text : Instr → String
  | .alloca slot => slot.text ++ " = alloca i32"
  | .store value slot => "store i32 " ++ value.text ++ ", i32* " ++ slot.text
  | .load dest slot => tempText dest ++ " = load i32* " ++ slot.text
  | .arith dest op lhs rhs =>
    tempText dest ++ " = " ++ op.mnemonic ++ " i32 " ++ lhs.text ++ ", " ++ rhs.text
  | .test dest kind value =>
    tempText dest ++ " = icmp " ++ kind.mnemonic ++ " i32 " ++ value.text ++ ", 0"
  | .branch cond yes no =>
    "br i1 " ++ tempText cond ++ ", label %" ++ yes.text ++ ", label %" ++ no.text
  | .jump target => "br label %" ++ target.text
  | .label here => here.text ++ ":"
  | .print value =>
    "call i32 (i8*, ...)* @printf(i8* getelementptr ([4 x i8]* @print.str, i32 0, i32 0), i32 " ++
      value.text ++ " )"
  | .printError line =>
    "call i32 (i8*, ...)* @printf(i8* getelementptr ([23 x i8]* @error.str, i32 0, i32 0), i32 " ++
      line.repr ++ ")"

def moduleHead : List String :=
  ["; ModuleID = 'mylang2ir'",
   "declare i32 @printf(i8*, ...)",
   "@print.str = constant [4 x i8] c\"%d\\0A\\00\"",
   "@error.str = constant [23 x i8] c\"Line %d: syntax error\\0A\\00\"",
   "define i32 @main() \x7b"]

def moduleEnd : List String := ["ret i32 0", "\x7d"]

/-- Each line with the line feed that ends it. -/
def unlines (ls : List String) : String := ls.foldr (fun l text => l ++ "\n" ++ text) ""

def moduleText (code : List Instr) : String :=
  unlines (moduleHead ++ code.map Instr.text ++ moduleEnd)

/-- The module that stands for a rejected source. -/
def errorModule (line : Nat) : String := moduleText [.printError line]

end SlotCompiler
