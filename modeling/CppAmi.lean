import CppAmi.Lib.Framing
import CppAmi.Lib.Ownership
import CppAmi.Lib.Potential
import CppAmi.Lib.Run
import CppAmi.Lib.Simulation
import CppAmi.Proof.Framer
import CppAmi.Proof.Banner
import CppAmi.Proof.ParseSafe
import CppAmi.Proof.Assembly
import CppAmi.Proof.Conservation
import CppAmi.Proof.Pipes
import CppAmi.Proof.Turns
import CppAmi.Proof.Cleanup
import CppAmi.Proof.Timed
import CppAmi.Proof.Agreement
import CppAmi.Proof.Reuse
import CppAmi.Proof.Lines
import CppAmi.Proof.Requests
import CppAmi.Proof.Reread
import CppAmi.Proof.Dictionary
import CppAmi.Proof.Finished
import CppAmi.Proof.Copies
import CppAmi.Proof.Custody
import CppAmi.Proof.Guards
import CppAmi.Proof.Wire
import CppAmi.Proof.Outbound
import CppAmi.Proof.Sockets
import CppAmi.Proof.Drain
import CppAmi.Proof.Workers
import CppAmi.Proof.Stops
import CppAmi.Proof.Pipeline
import CppAmi.Proof.System
import CppAmi.Proof.EndToEnd
import CppAmi.Proof.Returned
import CppAmi.Proof.Callbacks
import CppAmi.Proof.Progress
import CppAmi.Proof.Shutdown
import CppAmi.Proof.Answers
import CppAmi.Proof.Teardown
import CppAmi.Proof.Accounting
import CppAmi.Proof.Transparent
