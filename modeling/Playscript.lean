import Playscript.CommandLine.Run
import Playscript.Main
import Playscript.Proofs.Delivery
import Playscript.Proofs.Document
import Playscript.Proofs.Manifest
import Playscript.Proofs.Package
import Playscript.Proofs.PlainText
import Playscript.Proofs.Players
import Playscript.Proofs.Pressing
import Playscript.Proofs.Rounds
import Playscript.Proofs.Setting
import Playscript.Proofs.Shape
import Playscript.Proofs.Unheeded
import Playscript.Proofs.Usable
import Playscript.Proofs.Warnings
import Playscript.Proofs.Framing
import Playscript.Proofs.Fitting
import Playscript.Proofs.Rows
import Playscript.Proofs.Storing
import Playscript.Proofs.Saving
import Playscript.Proofs.Relisting
import Playscript.Proofs.Pacing
import Playscript.Proofs.Refusing
import Playscript.Proofs.LineAnswers
import Playscript.Proofs.Piped
import Playscript.Proofs.Resting
import Playscript.Proofs.Tempo
import Playscript.Proofs.Locality
import Playscript.Proofs.Items
import Playscript.Proofs.Colors
import Playscript.Proofs.Drama
import Playscript.Proofs.Overlay
import Playscript.Proofs.Fields
import Playscript.Proofs.Styling
import Playscript.Proofs.Releasing
import Playscript.Proofs.Overwriting
import Playscript.Proofs.Grammar
import Playscript.Proofs.Descending
import Playscript.Proofs.Folder
import Playscript.Proofs.Chunks
import Playscript.Proofs.Resetting
