import LittleComputer.Console.Script
import LittleComputer.Main
import LittleComputer.Proofs.BreakCharacter
import LittleComputer.Proofs.CharacterCalls
import LittleComputer.Proofs.CommandLine
import LittleComputer.Proofs.CommandLineGrammar
import LittleComputer.Proofs.ConditionCode
import LittleComputer.Proofs.DeviceBlocks
import LittleComputer.Proofs.Disassembly
import LittleComputer.Proofs.DisplayOutput
import LittleComputer.Proofs.Faults
import LittleComputer.Proofs.IllegalInstructions
import LittleComputer.Proofs.ImageLoading
import LittleComputer.Proofs.ImageOverlay
import LittleComputer.Proofs.Installation
import LittleComputer.Proofs.InstructionLimit
import LittleComputer.Proofs.InstructionSet
import LittleComputer.Proofs.InstructionTrace
import LittleComputer.Proofs.Interruption
import LittleComputer.Proofs.Keyboard
import LittleComputer.Proofs.LineMeaning
import LittleComputer.Proofs.LogHistory
import LittleComputer.Proofs.Logging
import LittleComputer.Proofs.MapHistory
import LittleComputer.Proofs.MemoryMap
import LittleComputer.Proofs.OneCharacter
import LittleComputer.Proofs.Outcome
import LittleComputer.Proofs.PipedInput
import LittleComputer.Proofs.Preparation
import LittleComputer.Proofs.ReadAhead
import LittleComputer.Proofs.Repetition
import LittleComputer.Proofs.RunComposition
import LittleComputer.Proofs.ShownMessages
import LittleComputer.Proofs.StopCodes
import LittleComputer.Proofs.Strings
import LittleComputer.Proofs.TerminalSettings
