import Ems.Jobs.Create
import Ems.Server.Rest
import Ems.Server.Linear
import Ems.Server.Snapshot
import Ems.Server.Numbers
import Ems.Server.Matrix
import Ems.Server.Delivery
import Ems.Jobs.Order
import Ems.Jobs.Waits
import Ems.Jobs.Processes
import Ems.Parts.Output
import Ems.Jobs.Owners
import Ems.Jobs.Alone
import Ems.Server.Created
import Ems.Server.Intact
import Ems.Server.Action
import Ems.Proto.Truncated
import Ems.Proto.Received
import Ems.Proto.Stepwise
import Ems.Service.Finish
import Ems.Jobs.OutFile
import Ems.Jobs.Committed
import Ems.Jobs.Solo
import Ems.Parse.Accepted
import Ems.Client.Failing
import Ems.Proto.Cleanup
import Ems.Jobs.Cells
import Ems.Server.Reserve
import Ems.Jobs.Rollback
import Ems.Jobs.Buffer
import Ems.Jobs.Safe
import Ems.Parse.Limit
import Ems.Jobs.Paths
import Ems.Jobs.Delays
import Ems.Timespec
import Ems.Returns
