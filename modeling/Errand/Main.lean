import Errand.Console

namespace Errand.Main

structure Options where
  words : List String := []
  config : String := "config.json"
  ticks : Nat := Console.defaultTicks
  budget : Option UInt32 := none

def parseOptions : List String → Options → Option Options
  | [], o => some o
  | "--config" :: path :: rest, o => parseOptions rest { o with config := path }
  | "-c" :: path :: rest, o => parseOptions rest { o with config := path }
  | "--ticks" :: n :: rest, o => do parseOptions rest { o with ticks := ← n.toNat? }
  | "-t" :: n :: rest, o => do parseOptions rest { o with ticks := ← n.toNat? }
  | "--budget" :: n :: rest, o => do parseOptions rest { o with budget := ← uint32? (← n.toNat?) }
  | "-b" :: n :: rest, o => do parseOptions rest { o with budget := ← uint32? (← n.toNat?) }
  | word :: rest, o =>
    if word.startsWith "-" then none else parseOptions rest { o with words := o.words ++ [word] }

def request? (o : Options) : Option (Console.Request × String) :=
  match o.words with
  | ["check", file] => some (.check, file)
  | ["run", file] => some (.run o.ticks o.budget, file)
  | _ => none

def readText (path : String) : IO (Option String) := do
  try
    return some (← IO.FS.readFile path)
  catch _ =>
    return none

end Errand.Main

open Errand in
def main (args : List String) : IO UInt32 := do
  match (Main.parseOptions args {}).bind fun o ↦ (Main.request? o).map (o, ·) with
  | none =>
    IO.eprintln "usage: (check | run) FILE [--config PATH] [--ticks N] [--budget N]"
    return 2
  | some (o, request, file) =>
    let seeded (seed : UInt64) : WordSource := { state := seed }
    match Console.answer seeded TaskId.mk request (← Main.readText o.config) (← Main.readText file) [] with
    | .ok () lines =>
      lines.forM IO.println
      return 0
    | .error e lines =>
      lines.forM IO.println
      IO.eprintln ("Error: " ++ e.message TaskId.text)
      return 1
