import SoaPort.Lib.Bits
import SoaPort.Recomp.Arch
import SoaPort.Recomp.Emit
import SoaPort.Recomp.Encode
import SoaPort.Recomp.Helpers
import SoaPort.Recomp.Memory
import SoaPort.Recomp.TranslateInteger
import SoaPort.Recomp.TranslateMove
import SoaPort.Recomp.TranslateCorrect
import SoaPort.Lib.Loop
import SoaPort.Ppc.Dol
import SoaPort.Ppc.Regs
import SoaPort.Ppc.Tables
import SoaPort.Ppc.Walk
import SoaPort.Recomp.Flow
import SoaPort.Recomp.FlowCorrect
import SoaPort.Recomp.FlowLayout
import SoaPort.Ppc.Build
import SoaPort.Ppc.WalkClaims
import SoaPort.Ppc.Gaps
import SoaPort.Ppc.Mining
import SoaPort.Gx.Command
import SoaPort.Gx.Parse
import SoaPort.Ppc.Pruning
import SoaPort.Gx.PipeCorrect
import SoaPort.Gx.Record
import SoaPort.Lib.Reorder
import SoaPort.Mods.Order
import SoaPort.Mods.OrderCorrect
import SoaPort.Lib.Bytes
import SoaPort.Save.Savext
import SoaPort.Save.Chunks
import SoaPort.Save.Pack
import SoaPort.Save.Gather
import SoaPort.Save.SavextCorrect
import SoaPort.Save.Kept
import SoaPort.Lib.Text
import SoaPort.Pad.Lines
import SoaPort.Lib.Changes
import SoaPort.Pad.Record
import SoaPort.Pad.Replay
import SoaPort.Pad.LoadCorrect
import SoaPort.Pad.Channels
import SoaPort.Pad.Recording
import SoaPort.Pad.ReplayCorrect
import SoaPort.Lib.Commute
import SoaPort.Mods.Loading
import SoaPort.Mods.Targets
import SoaPort.Mods.Conflicts
import SoaPort.Mods.ConflictsCorrect
import SoaPort.Mods.FramesCorrect
import SoaPort.Guest.Clock
import SoaPort.Guest.Delivery
import SoaPort.Guest.Switching
import SoaPort.Recomp.Effect
import SoaPort.Recomp.Tracking
import SoaPort.Recomp.Switches
import SoaPort.Picture.Flash
import SoaPort.Picture.FlashCorrect
import SoaPort.Gxv.Commands
import SoaPort.Gxv.Held
import SoaPort.Gxv.Landing
import SoaPort.Gxv.LandingCorrect
import SoaPort.Gxv.Stray
import SoaPort.Picture.Budget
import SoaPort.Picture.Rate
import SoaPort.Lib.Window
import SoaPort.Picture.BudgetCorrect
import SoaPort.Lib.TripleBuffer
import SoaPort.Picture.Ring
import SoaPort.Picture.RingCorrect
import SoaPort.Gx.Vertex
import SoaPort.Gx.VertexCorrect
import SoaPort.Picture.Tev
import SoaPort.Picture.TevCorrect
import SoaPort.Lib.Once
import SoaPort.Mods.Factor
import SoaPort.Mods.FactorCorrect
import SoaPort.Save.Room
import SoaPort.Recomp.Float
import SoaPort.Save.RoomCorrect
import SoaPort.Recomp.Assigned
import SoaPort.Gxr.Copy
import SoaPort.Lib.Scatter
import SoaPort.Recomp.Frame
import SoaPort.Recomp.RecordForms
import SoaPort.Gxr.CopyCorrect
import SoaPort.Lib.Signed
import SoaPort.Sound.Voice
import SoaPort.Sound.AdpcmCorrect
import SoaPort.Sound.Mixer
import SoaPort.Sound.MixerCorrect
import SoaPort.Card.Format
import SoaPort.Card.Serial
import SoaPort.Card.FormatCorrect
import SoaPort.Card.Exi
import SoaPort.Card.ExiCorrect
import SoaPort.Card.FlushCorrect
import SoaPort.Disc.Sha1
import SoaPort.Disc.Store
import SoaPort.Disc.StoreCorrect
import SoaPort.Disc.ServeCorrect
import SoaPort.Disc.Fst
import SoaPort.Disc.Overlay
import SoaPort.Disc.FstCorrect
import SoaPort.Disc.EmitCorrect
import SoaPort.Disc.IndexCorrect
import SoaPort.Disc.OverlayCorrect
import SoaPort.Screen.Overlay
import SoaPort.Screen.OverlayCorrect
import SoaPort.Gxr.Pairs
import SoaPort.Lib.Chain
import SoaPort.Gxr.PairTables
import SoaPort.Gxr.PairsCorrect
import SoaPort.Debug.Actions
import SoaPort.Debug.ActionsCorrect
import SoaPort.Ppc.Gamedata
import SoaPort.Recomp.GamedataCorrect
import SoaPort.Lib.WordOrder
import SoaPort.Msl.Strings
import SoaPort.Msl.StringsCorrect
import SoaPort.Gxr.TexIndex
import SoaPort.Gxr.TexIndexCorrect
import SoaPort.Disc.Aklz
import SoaPort.Lib.Sliding
import SoaPort.Disc.AklzCorrect
import SoaPort.Mods.Menu
import SoaPort.Mods.MenuCorrect
import SoaPort.Save.Savenow
import SoaPort.Save.SavenowCorrect
import SoaPort.Disc.Import
import SoaPort.Disc.ImportCorrect
import SoaPort.Guest.Stdio
import SoaPort.Guest.StdioCorrect
import SoaPort.Aram.Agenda
import SoaPort.Aram.ArqCorrect
import SoaPort.Aram.ArqRuns
import SoaPort.Aram.ArqService
import SoaPort.Aram.Engine
import SoaPort.Aram.EngineCorrect
import SoaPort.Aram.System
import SoaPort.Aram.Copies
import SoaPort.Aram.Arrival
import SoaPort.Mods.OptionsCorrect
import SoaPort.Mods.OptionsDomain
