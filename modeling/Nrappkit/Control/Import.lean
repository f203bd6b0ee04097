import Nrappkit.Control.Export
/-!
# Running what was exported

The shell makes one command of the line of a leaf that is no `Data`. A command
that succeeds stores the leaf it was printed for; where the string was empty
there is no word for it, and the command is another one.
-/
open Lib Nrappkit.Registry

namespace Nrappkit.Control

/-! ## The commands -/

section
variable {env : Env} {words : List Bytes} {script : Bytes}

end

/-! ## What a command stores -/

section
variable {beh : nr_reg_cb_info → UInt8} {env : Env} {s s' : Reg} {name : Bytes} {arg : Arg}

end

/-! ## The whole script -/

section
variable {beh : nr_reg_cb_info → UInt8} {env : Env} {s t t' : Reg}

end

end Nrappkit.Control
