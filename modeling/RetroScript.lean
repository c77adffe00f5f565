import RetroScript.Main
import RetroScript.Proofs.Soundness
import RetroScript.Proofs.Agreement
import RetroScript.Proofs.Reports
import RetroScript.Proofs.Lockstep
import RetroScript.Proofs.Transparency
import RetroScript.Proofs.Grammar
import RetroScript.Proofs.ParserSoundness
import RetroScript.Proofs.FloatBits
import RetroScript.Proofs.Rounding
import RetroScript.Proofs.NumberText
import RetroScript.Proofs.Printer
import RetroScript.Proofs.RoundTrip
import RetroScript.Proofs.CallRun
import RetroScript.Proofs.Confinement
import RetroScript.Proofs.LexicalScope
import RetroScript.Proofs.Comments
import RetroScript.Proofs.DepthLimit
import RetroScript.Proofs.Spelling
import RetroScript.Proofs.Tiling
import RetroScript.Proofs.Rendering
import RetroScript.Proofs.Bare
import RetroScript.Proofs.Remarks
import RetroScript.Proofs.GarbageBound
import RetroScript.Proofs.EntryOrder
import RetroScript.Proofs.Canvas
import RetroScript.Proofs.VideoMemory
import RetroScript.Proofs.Places
import RetroScript.Proofs.ErrorPlaces
import RetroScript.Proofs.Devices
import RetroScript.Proofs.FullSink
import RetroScript.Proofs.JsonText
import RetroScript.Proofs.OutlineText
import RetroScript.Proofs.Bisimilarity
import RetroScript.Proofs.Unfolding
import RetroScript.Proofs.Requests
import RetroScript.Proofs.Console
import RetroScript.Proofs.Assignment
import RetroScript.Proofs.NumberValue
import RetroScript.Proofs.Elements
import RetroScript.Proofs.LinePixels
import RetroScript.Proofs.Clipping
import RetroScript.Proofs.NearestNumber
import RetroScript.Proofs.AxisLines
import RetroScript.Proofs.Circles
import RetroScript.Proofs.CleanFailure
import RetroScript.Proofs.Substrings
import RetroScript.Proofs.PrintedNumbers
import RetroScript.Proofs.Lookahead
import RetroScript.Proofs.KeywordCase
import RetroScript.Proofs.ParseFaults
import RetroScript.Proofs.Cursor
import RetroScript.Proofs.Progress
import RetroScript.Proofs.Chords
