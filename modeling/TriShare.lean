import TriShare.Main
import TriShare.Party.Json
import TriShare.Table.Open
import TriShare.Proofs.Padding.Rows
import TriShare.Proofs.Table.Privacy
import TriShare.Proofs.Profile.Rejected
import TriShare.Proofs.Padding.Profiled
import TriShare.Proofs.Config.Fingerprint
import TriShare.Proofs.Number.Shape
import TriShare.Proofs.Party.Format
import TriShare.Proofs.Table.Drawing
import TriShare.Proofs.Padding.Layout
import TriShare.Proofs.Number.Shortest
import TriShare.Proofs.Number.Written
import TriShare.Proofs.Number.Expansion
import TriShare.Proofs.Table.Numbers
import TriShare.Proofs.Number.Rounding
import TriShare.Proofs.Record.Json
import TriShare.Proofs.Json.Atoms
import TriShare.Proofs.Json.Depth
import TriShare.Proofs.Json.RoundTrip
import TriShare.Proofs.Table.HandedOver
import TriShare.Proofs.Command.Outputs
import TriShare.Proofs.Command.Run
import TriShare.Proofs.Text.Codecs
