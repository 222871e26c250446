import ProductLine.Compilation
import ProductLine.Example.Server

/-!
The command line: compiles the example server and lists its conjuncts and variables.
-/
namespace ProductLine.CommandLine

structure Options where
  slots : UInt32 := 3
  minSlots : UInt32 := 1
  simple : Bool := false
  lenient : Bool := false
  deriving Repr

def readCount (text : String) : Except String UInt32 :=
  let digits := text.toList
  let n := digits.foldl (fun n c => 10 * n + (c.toNat - '0'.toNat)) 0
  if digits.isEmpty || !digits.all Char.isDigit then .error ("not a number: " ++ text)
  else if n < UInt32.size then .ok (UInt32.ofNat n)
  else .error ("number too large: " ++ text)

def readOptions (o : Options) : List String → Except String Options
  | [] => .ok o
  | "--simple" :: rest => readOptions { o with simple := true } rest
  | "--lenient" :: rest => readOptions { o with lenient := true } rest
  | "--min-slots" :: count :: rest => do
    readOptions { o with minSlots := ← readCount count } rest
  | count :: rest => do readOptions { o with slots := ← readCount count } rest

def Options.settings (o : Options) : Settings where
  encoding := if o.simple then .simple else .full
  missing := if o.lenient then .keepFeature else .fail

def report (c : Compiled) : List String :=
  ["Conjuncts (" ++ toString c.conjuncts.length ++ "):"] ++
    c.conjuncts.map (fun f => "  " ++ f.render) ++
    ["Variables (" ++ toString c.symbols.toList.length ++ "):"] ++
    c.symbols.toList.map fun v => "  " ++ v.render

def run (arguments : List String) : Except String (List String) := do
  let o ← readOptions {} arguments
  let m ← (Example.Server.model o.minSlots o.slots).mapError Example.Server.SlotError.message
  report <$> (m.compile o.settings).mapError Failure.message

end ProductLine.CommandLine

def main (arguments : List String) : IO UInt32 := do
  match ProductLine.CommandLine.run arguments with
  | .ok lines =>
    for line in lines do IO.println line
    return 0
  | .error message =>
    IO.eprintln ("Error: " ++ message)
    return 1
