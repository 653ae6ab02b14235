import WordAutomata.CommandLine

open WordAutomata

def main (arguments : List String) : IO UInt32 := do
  let transcript := CommandLine.transcript arguments
  (← IO.getStdout).putStr transcript.output
  (← IO.getStderr).putStr transcript.errors
  return transcript.code.toUInt32
